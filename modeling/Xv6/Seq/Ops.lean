import Xv6.Fs.DiskInvariant
import Xv6.Lib.Solo

/-! What each operation does for a process that runs alone on the logical disk. A buffer that nobody has is
given at once, so that a block is read, changed and released without a trace of who had it. -/

namespace Xv6

open Lib Function Machine

namespace FsState

variable {P X : Type}

def setCache (s : FsState P X) (c : ICache P) : FsState P X := { s with icache := c }

def setExt (s : FsState P X) (x : X) : FsState P X := { s with ext := x }

def inum (s : FsState P X) (ip : Fin NINODE) : Nat := (s.icache.slot ip).inode.inum

/-- The fields of an inode in memory. -/
def mem (s : FsState P X) (ip : Fin NINODE) : Dinode := (s.icache.slot ip).inode.toDinode

def ref (s : FsState P X) (ip : Fin NINODE) : Int := (s.icache.slot ip).ref

section Fields

variable (s : FsState P X) (b : Nat) (d : Block) (o : Option P) (c : ICache P) (x : X)

@[simp] theorem disk_setDisk : (s.setDisk b d).disk = update s.disk b d := rfl
@[simp] theorem disk_setOwner : (s.setOwner b o).disk = s.disk := rfl
@[simp] theorem owner_setOwner : (s.setOwner b o).owner = update s.owner b o := rfl
@[simp] theorem icache_setOwner : (s.setOwner b o).icache = s.icache := rfl
@[simp] theorem disk_setCache : (s.setCache c).disk = s.disk := rfl
@[simp] theorem op_setCache : (s.setCache c).op = s.op := rfl
@[simp] theorem icache_setCache : (s.setCache c).icache = c := rfl
@[simp] theorem ext_setCache : (s.setCache c).ext = s.ext := rfl
@[simp] theorem setCache_setCache (c' : ICache P) : (s.setCache c).setCache c' = s.setCache c' := rfl

variable {s b}

theorem setOwner_setOwner (h : s.owner b = none) : (s.setOwner b o).setOwner b none = s := by
  have howner : update (update s.owner b o) b none = s.owner := by
    rw [update_idem, ← h, update_eq_self]
  unfold setOwner
  rw [howner]

theorem setOwner_setDisk_setOwner (h : s.owner b = none) (b' : Nat) :
    ((s.setOwner b o).setDisk b' d).setOwner b none = s.setDisk b' d := by
  change ((s.setOwner b o).setOwner b none).setDisk b' d = s.setDisk b' d
  rw [setOwner_setOwner o h]

theorem setOwner_setCache_setOwner (h : s.owner b = none) :
    ((s.setOwner b o).setCache c).setOwner b none = s.setCache c := by
  change ((s.setOwner b o).setOwner b none).setCache c = s.setCache c
  rw [setOwner_setOwner o h]

end Fields

/-! ### Operations -/

variable [DecidableEq P] {F : Sig} {α : Type} {more : P → (f : F.Op) → X → Outcome X (F.Ret f)} {p : P}
  {s : FsState P X} {f : Unit → FsM Nat F α}

section Buffers

variable {b : Nat} {d : Block}

theorem exec_bread (dev : Nat) : exec more p (.bread dev b) s = match s.owner b with
    | some _ => .block
    | none => .ok b (s.setOwner b (some p)) := rfl

theorem run_bread {dev : Nat} {f : Nat → FsM Nat F α} (h : s.owner b = none) :
    (machine more).run p (Client.bread dev b >>= f) s = (machine more).run p (f b) (s.setOwner b (some p)) := by
  have hexec : exec more p (.bread dev b) s = .ok b (s.setOwner b (some p)) := by rw [exec_bread, h]
  exact run_call_ok hexec

theorem run_bdata {f : Block → FsM Nat F α} :
    (machine more).run p (Client.bdata b >>= f) s = (machine more).run p (f (s.disk b)) s := rfl

theorem run_bstore :
    (machine more).run p (Client.bstore b d >>= f) s = (machine more).run p (f ()) (s.setDisk b d) := rfl

theorem run_bcopyin {off n : Nat} {src : Src} {f : Bool → FsM Nat F α} :
    (machine more).run p (Client.bcopyin b off src n >>= f) s = (machine more).run p (f (eitherCopyin src n).2)
        (s.setDisk b ((s.disk b).copy off (eitherCopyin src n).1)) := rfl

theorem run_logWrite (h : s.op p = true) :
    (machine more).run p (Client.logWrite b >>= f) s = (machine more).run p (f ()) s := by
  have hexec : (if s.op p then .ok () s else .panic "log_write outside of trans" :
      Outcome (FsState P X) Unit) = .ok () s := if_pos h
  exact run_call_ok hexec

theorem run_brelse (h : s.owner b = some p) :
    (machine more).run p (Client.brelse b >>= f) s = (machine more).run p (f ()) (s.setOwner b none) := by
  have hexec : (if s.owner b = some p then .ok () (s.setOwner b none) else .panic "brelse" :
      Outcome (FsState P X) Unit) = .ok () (s.setOwner b none) := if_pos h
  exact run_call_ok hexec

theorem run_beginOp :
    (machine more).run p (Client.beginOp >>= f) s = (machine more).run p (f ()) (s.setOp p true) := rfl

theorem run_endOp : (machine more).run p (Client.endOp >>= f) s = (machine more).run p (f ()) (s.setOp p false) := rfl

theorem run_modify {m : FsM Nat F α} (h : s.owner b = none) (hop : s.op p = true) :
    (machine more).run p (do
      Client.bstore b d
      Client.logWrite b
      Client.brelse b
      m) (s.setOwner b (some p)) = (machine more).run p m (s.setDisk b d) := by
  have hop' : ((s.setOwner b (some p)).setDisk b d).op p = true := hop
  have howner : ((s.setOwner b (some p)).setDisk b d).owner b = some p := update_self ..
  rw [run_bstore, run_logWrite hop', run_brelse howner, setOwner_setDisk_setOwner _ _ h]

theorem run_modify_last (h : s.owner b = none) (hop : s.op p = true) :
    (machine more).run p (do
      Client.bstore b d
      Client.logWrite b
      Client.brelse b : FsM Nat F Unit) (s.setOwner b (some p)) = .ok () (s.setDisk b d) := by
  rw [← bind_pure_unit (x := Client.brelse b)]
  exact run_modify h hop

end Buffers

section Inodes

variable {ip : Fin NINODE}

theorem run_idup : (machine more).run p (Fs.idup ip >>= f) s =
      (machine more).run p (f ()) (s.setCache (s.icache.idup p ip)) := rfl

theorem run_iputDrop : (machine more).run p (Fs.iputDrop ip >>= f) s =
      (machine more).run p (f ()) (s.setCache (s.icache.drop p ip)) := rfl

theorem run_iref {f : Int → FsM Nat F α} :
    (machine more).run p (Fs.iref ip >>= f) s = (machine more).run p (f (s.ref ip)) s := rfl

theorem run_releasesleep : (machine more).run p (Fs.releasesleep ip >>= f) s =
      (machine more).run p (f ()) (s.setCache (s.icache.releasesleep ip)) := rfl

theorem run_iload {f : Inode → FsM Nat F α} :
    (machine more).run p (Fs.iload ip >>= f) s = (machine more).run p (f (s.icache.slot ip).inode) s := rfl

theorem run_istore {v : Dinode} : (machine more).run p (Fs.istore ip v >>= f) s =
      (machine more).run p (f ()) (s.setCache (s.icache.set ip ((s.icache.slot ip).setDinode v))) := rfl

theorem run_setValid {v : Bool} : (machine more).run p (Fs.setValid ip v >>= f) s =
      (machine more).run p (f ()) (s.setCache (s.icache.set ip ((s.icache.slot ip).setValid v))) := rfl

theorem run_acquiresleep (h : (s.icache.slot ip).lock = none) :
    (machine more).run p (Fs.acquiresleep ip >>= f) s = (machine more).run p (f ())
      (s.setCache (s.icache.set ip ((s.icache.slot ip).setLock (some p)))) := by
  refine run_call_ok ?_
  show (FsOp.exec more p (.acquiresleep ip) (s.icache, s.ext)).mapState _ = _
  simp only [FsOp.exec, ICache.acquiresleep, h]
  rfl

theorem exec_iunlock (h : (s.icache.slot ip).lock = some p) (href : 0 < s.ref ip) :
    (machine more).exec p (.ext (.iunlock ip)) s = .ok () (s.setCache (s.icache.releasesleep ip)) := by
  have hfail : ¬((s.icache.slot ip).lock ≠ some p ∨ (s.icache.slot ip).ref < 1) := by
    rintro (hlock | hlt)
    · exact hlock h
    · exact absurd href (Int.not_lt.2 (Int.lt_add_one_iff.1 hlt))
  show (FsOp.exec more p (.iunlock ip) (s.icache, s.ext)).mapState _ = _
  simp only [FsOp.exec, ICache.iunlock, if_neg hfail]
  rfl

theorem run_iunlock (h : (s.icache.slot ip).lock = some p) (href : 0 < s.ref ip) :
    (machine more).run p (Fs.iunlock ip >>= f) s =
      (machine more).run p (f ()) (s.setCache (s.icache.releasesleep ip)) :=
  run_call_ok (exec_iunlock h href)

theorem run_iputLast_false {f : Bool → FsM Nat F α}
    (h : ¬((s.icache.slot ip).ref = 1 ∧ (s.icache.slot ip).inode.valid ∧ (s.icache.slot ip).inode.nlink = 0)) :
    (machine more).run p (Fs.iputLast ip >>= f) s =
      (machine more).run p (f false) (s.setCache (s.icache.drop p ip)) := by
  refine run_call_ok ?_
  show (FsOp.exec more p (.iputLast ip) (s.icache, s.ext)).mapState _ = _
  simp only [FsOp.exec, ICache.iputLast, if_neg h]
  rfl

theorem run_iputLast_true {f : Bool → FsM Nat F α}
    (h : (s.icache.slot ip).ref = 1 ∧ (s.icache.slot ip).inode.valid ∧ (s.icache.slot ip).inode.nlink = 0)
    (hlock : (s.icache.slot ip).lock = none) : (machine more).run p (Fs.iputLast ip >>= f) s = (machine more).run p (f true)
      (s.setCache ((s.icache.set ip ((s.icache.slot ip).setLock (some p))).setFreeing ip (some p))) := by
  refine run_call_ok ?_
  show (FsOp.exec more p (.iputLast ip) (s.icache, s.ext)).mapState _ = _
  simp only [FsOp.exec, ICache.iputLast, if_pos h, hlock]
  rfl

theorem run_iget {dev inum : Nat} {f : Fin NINODE → FsM Nat F α} {c : ICache P}
    (h : s.icache.iget p dev inum = .ok ip c) :
    (machine more).run p (Fs.iget dev inum >>= f) s = (machine more).run p (f ip) (s.setCache c) := by
  refine run_call_ok ?_
  show (FsOp.exec more p (.iget dev inum) (s.icache, s.ext)).mapState _ = _
  simp only [FsOp.exec, h]
  rfl

theorem run_iget_panic {dev inum : Nat} {f : Fin NINODE → FsM Nat F α} {msg : String}
    (h : s.icache.iget p dev inum = .panic msg) :
    (machine more).run p (Fs.iget dev inum >>= f) s = .panic msg := by
  refine run_call_panic ?_
  show (FsOp.exec more p (.iget dev inum) (s.icache, s.ext)).mapState _ = _
  simp only [FsOp.exec, h]
  rfl

theorem run_more {g : F.Op} {r : F.Ret g} {x : X} {f : F.Ret g → FsM Nat F α} (h : more p g s.ext = .ok r x) :
    (machine more).run p (Fs.more g >>= f) s = (machine more).run p (f r) (s.setExt x) := by
  refine run_call_ok ?_
  show (FsOp.exec more p (.more g) (s.icache, s.ext)).mapState _ = _
  simp only [FsOp.exec, h]
  rfl

end Inodes

end FsState

end Xv6
