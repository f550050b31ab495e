import Xv6.Disk.Block
import Xv6.Lib.Writes
import Xv6.Log.Core

/-!
# Commit and Recovery as Sequences of Disk Writes

The state is the device, the contents the buffer cache would return for each block, and the
in-memory log.  `bwrite` is the only operation that changes the device; every one is recorded in
program order, so that a machine that stops early has performed a prefix of the recorded writes.
`bread` reads the cache.  After a crash the cache is empty, which for its readers is the same as
agreeing with the device.
-/

namespace Xv6.Log

open Lib

/-- Device, cache view and in-memory log, with the disk writes issued so far. -/
structure Machine where
  disk : Device
  cache : Device
  log : LogState
  writes : List (ℕ × Block)

namespace Machine

/-- `b->data` of the locked buffer for `blockno` is overwritten in the cache. -/
def modify (m : Machine) (blockno : ℕ) (data : Block) : Machine :=
  { m with cache := Function.update m.cache blockno data }

/-- `bwrite`: the cached contents of a block go to the device. -/
def bwrite (m : Machine) (blockno : ℕ) : Machine :=
  { m with
    disk := Function.update m.disk blockno (m.cache blockno)
    writes := m.writes ++ [(blockno, m.cache blockno)] }

end Machine

/-- The assignments `write_head` makes to the header buffer. -/
def storeHeader (lh : LogHeader) (hb : Block) : Block :=
  (List.range lh.n).foldl (fun hb i ↦ Block.setWord hb (i + 1) (lh.block i))
    (Block.setWord hb 0 lh.n)

/-- The assignments `read_head` makes to the in-memory header. -/
def loadHeader (hb : Block) (lh : LogHeader) : LogHeader where
  n := hb.word 0
  block i := if i < hb.word 0 then hb.word (i + 1) else lh.block i

/-- `install_trans`: copy each logged block from the log area to its home location. -/
def installTrans (m : Machine) : Machine :=
  (List.range m.log.lh.n).foldl
    (fun m tail ↦
      let lbuf := m.cache (m.log.start + tail + 1)
      let dst := m.log.lh.block tail
      (m.modify dst lbuf).bwrite dst) m

/-- `read_head`. -/
def readHead (m : Machine) : Machine :=
  { m with log := { m.log with lh := loadHeader (m.cache m.log.start) m.log.lh } }

/-- `write_head`. -/
def writeHead (m : Machine) : Machine :=
  let hb := m.cache m.log.start
  (m.modify m.log.start (storeHeader m.log.lh hb)).bwrite m.log.start

/-- The assignment `log.lh.n = 0`. -/
def clearHead (m : Machine) : Machine :=
  { m with log := { m.log with lh := { m.log.lh with n := 0 } } }

/-- `recover_from_log`. -/
def recoverFromLog (m : Machine) : Machine :=
  writeHead (clearHead (installTrans (readHead m)))

/-- `write_log`: copy each logged block from the cache to the log area. -/
def writeLog (m : Machine) : Machine :=
  (List.range m.log.lh.n).foldl
    (fun m tail ↦
      let src := m.cache (m.log.lh.block tail)
      let dst := m.log.start + tail + 1
      (m.modify dst src).bwrite dst) m

/-- `commit`. -/
def commit (m : Machine) : Machine :=
  if m.log.lh.n > 0 then
    writeHead (clearHead (installTrans (writeHead (writeLog m))))
  else m

/-- A transaction: the blocks an operation modifies, in order, each followed by `log_write`. -/
abbrev Transaction := List (ℕ × Block)

/-- Modify blocks in the cache and pass each one to `log_write`. -/
def logAll (m : Machine) : Transaction → Except Panic Machine
  | [] => .ok m
  | (blockno, data) :: rest => do
      let (log, _) ← logWrite m.log blockno
      logAll { m.modify blockno data with log := log } rest

/-- One operation running alone: `begin_op`, its `log_write` calls, and `end_op` with the commit
it performs.  `none` means that the machine stopped in a panic or would sleep. -/
def runTransaction (m : Machine) (tx : Transaction) : Option Machine :=
  match beginOp m.log with
  | none => none
  | some log =>
    match logAll { m with log := log } tx with
    | .error _ => none
    | .ok m =>
      match endOp m.log with
      | .error _ => none
      | .ok (log, doCommit) =>
        let m := { m with log := log }
        if doCommit then
          let m := commit m
          some { m with log := endCommit m.log }
        else some m

/-- Run transactions one after the other until the machine stops. -/
def runTransactions (m : Machine) : List Transaction → Machine
  | [] => m
  | tx :: txs =>
    match runTransaction m tx with
    | none => m
    | some m => runTransactions m txs

/-- The machine `initlog` starts from: an empty cache and zeroed log memory, with the geometry
of the super block. -/
def boot (start size : ℕ) (disk : Device) : Machine where
  disk := disk
  cache := disk
  log :=
    { start := start
      size := size
      outstanding := 0
      committing := false
      lh := { n := 0, block := fun _ ↦ 0 } }
  writes := []

/-- The device after a machine that started on `disk` stopped having issued `count` writes. -/
def crashAfter (disk : Device) (m : Machine) (count : ℕ) : Device :=
  performWrites disk (m.writes.take count)

/-- The device after recovery was started and stopped again, once for each entry of the list. -/
def crashRecoveries (start size : ℕ) (disk : Device) : List ℕ → Device
  | [] => disk
  | count :: counts =>
    crashRecoveries start size
      (crashAfter disk (recoverFromLog (boot start size disk)) count) counts

end Xv6.Log
