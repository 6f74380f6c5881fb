import Xv6.Kernel.Transparency
import Xv6.Fs.State

/-! Every store to a buffer in `fs.c` is followed by `log_write` before the buffer is released, with one
exception: `writei` releases a buffer into which a failing `either_copyin` has copied a part of the bytes. -/

namespace Xv6

open Lib Logic Function

/-- A changed buffer is logged before it is released, provided that failing copies change nothing and
that `log_write` is called inside operations. -/
def Rules.tracks : Rules := ⟨false, false, true, true, false, fun _ _ => True⟩

namespace Session

variable {c c₁ c₂ : Session} {i : Fin NBUF} {s : Status}

/-- The same buffers are held, and an operation runs or does not. -/
def Same (c c₁ : Session) : Prop := c₁.held = c.held ∧ c₁.op.isSome = c.op.isSome

/-- Moreover buffer `i` is held. -/
def With (c : Session) (i : Fin NBUF) (s : Status) (c₁ : Session) : Prop :=
  c.held i = none ∧ (∃ b d, c₁.held = update c.held i (some ⟨b, d, s⟩)) ∧
    c₁.op.isSome = c.op.isSome

theorem Same.refl : c.Same c := ⟨rfl, rfl⟩

theorem Same.trans (h : c.Same c₁) (h' : c₁.Same c₂) : c.Same c₂ :=
  ⟨h'.1.trans h.1, h'.2.trans h.2⟩

variable (h : c.With i s c₁)
include h

theorem With.trans (h' : c₁.Same c₂) : c.With i s c₂ := by
  obtain ⟨hnone, ⟨b, d, hheld⟩, hop⟩ := h
  exact ⟨hnone, ⟨b, d, h'.1.trans hheld⟩, h'.2.trans hop⟩

theorem With.held : ∃ b d, c₁.held i = some ⟨b, d, s⟩ := by
  obtain ⟨-, ⟨b, d, hheld⟩, -⟩ := h
  exact ⟨b, d, by rw [hheld, update_self]⟩

theorem With.hold {x : Held} {op : Option (Finset Nat)}
    (hop : op.isSome = c₁.op.isSome) : c.With i x.status ⟨op, (c₁.hold i x).held⟩ := by
  obtain ⟨hnone, ⟨b, d, hheld⟩, hop'⟩ := h
  refine ⟨hnone, ⟨x.blockno, x.data, ?_⟩, hop.trans hop'⟩
  show update c₁.held i (some x) = _
  rw [hheld, update_idem]

theorem With.release : c.Same (c₁.release i) := by
  obtain ⟨hnone, ⟨b, d, hheld⟩, hop⟩ := h
  refine ⟨?_, hop⟩
  show update c₁.held i none = c.held
  rw [hheld, update_idem, ← hnone, update_eq_self]

end Session

namespace Tracked

variable {E : Sig} {α β : Type}

/-- The program releases the buffers it takes and ends the operations it begins. -/
def Neutral (m : Prog (Client (Fin NBUF) E) α) : Prop :=
  ∀ c, (protocol Rules.tracks E).wp m (fun _ c' => c.Same c') c

theorem pure (a : α) : Neutral (Pure.pure a : Prog (Client (Fin NBUF) E) α) := fun _ => .refl

variable {m : Prog (Client (Fin NBUF) E) α}

theorem bind {f : α → Prog (Client (Fin NBUF) E) β} (hm : Neutral m)
    (hf : ∀ a, Neutral (f a)) : Neutral (m >>= f) := fun c =>
  wp_seq (hm c) fun a c₁ h =>
    wp_mono (fun _ _ h' => h.trans h') (hf a c₁)

theorem ext (e : E.Op) : Neutral (Client.ext e : Prog (Client (Fin NBUF) E) _) := by
  intro c
  refine ⟨trivial, ?_⟩
  rintro r _ rfl
  exact .refl

/-! A buffer is taken, used and given back. -/

section Buffer

variable {c c₁ : Session} {i : Fin NBUF} {s : Status} {Q : α → Session → Prop}

theorem bread {b : Nat} {f : Fin NBUF → Prog (Client (Fin NBUF) E) α}
    (h : ∀ (c : Session) i c₁, c.With i .safe c₁ → (protocol Rules.tracks E).wp (f i) (fun _ c' => c.Same c') c₁) :
    Neutral (Client.bread ROOTDEV b >>= f) := fun c =>
  Protocol.bread nofun fun i d hi => h c i _ ⟨hi, ⟨b, d, rfl⟩, rfl⟩

theorem bdata {f : Block → Prog (Client (Fin NBUF) E) α} (hw : c.With i s c₁)
    (h : ∀ d, (protocol Rules.tracks E).wp (f d) Q c₁) :
    (protocol Rules.tracks E).wp (Client.bdata i >>= f) Q c₁ := by
  obtain ⟨b, d, hheld⟩ := hw.held
  exact Protocol.bdata hheld (h d)

theorem bstore {d : Block} {f : Unit → Prog (Client (Fin NBUF) E) α} (hw : c.With i s c₁)
    (h : ∀ c₂, c.With i .dirty c₂ → (protocol Rules.tracks E).wp (f ()) Q c₂) :
    (protocol Rules.tracks E).wp (Client.bstore i d >>= f) Q c₁ := by
  obtain ⟨b, d', hheld⟩ := hw.held
  exact Protocol.bstore hheld (h _ (hw.hold (x := ⟨b, d, .dirty⟩) rfl))

theorem logWrite {f : Unit → Prog (Client (Fin NBUF) E) α} (hw : c.With i s c₁)
    (h : ∀ c₂, c.With i .safe c₂ → (protocol Rules.tracks E).wp (f ()) Q c₂) :
    (protocol Rules.tracks E).wp (Client.logWrite i >>= f) Q c₁ := by
  obtain ⟨b, d, hheld⟩ := hw.held
  refine Protocol.logWrite (Or.inl rfl) hheld nofun fun S hS => h _ ?_
  exact hw.hold (x := ⟨b, d, .safe⟩) (by rw [hS]; rfl)

theorem brelse {f : Unit → Prog (Client (Fin NBUF) E) α} (hw : c.With i .safe c₁) (h : Neutral (f ())) :
    (protocol Rules.tracks E).wp (Client.brelse i >>= f) (fun _ c' => c.Same c') c₁ := by
  obtain ⟨b, d, hheld⟩ := hw.held
  exact Protocol.brelse hheld (fun _ => nofun) (wp_mono (fun _ _ h' => hw.release.trans h') (h _))

theorem brelse_last (hw : c.With i .safe c₁) :
    (protocol Rules.tracks E).wp (Client.brelse i) (fun _ c' => c.Same c') c₁ := by
  rw [← bind_pure (Client.brelse i)]
  exact brelse hw (pure _)

theorem frame {f : α → Prog (Client (Fin NBUF) E) β} {Q : β → Session → Prop} (hm : Neutral m) (hw : c.With i s c₁)
    (h : ∀ a c₂, c.With i s c₂ → (protocol Rules.tracks E).wp (f a) Q c₂) :
    (protocol Rules.tracks E).wp (m >>= f) Q c₁ :=
  wp_seq (hm c₁) fun a c₂ hsame => h a c₂ (hw.trans hsame)

/-- A copy that succeeds changes the buffer, one that fails does not. -/
theorem bcopyin {off : Nat} {src : Src} {n : Nat} {f : Bool → Prog (Client (Fin NBUF) E) α}
    (hw : c.With i s c₁) (hfail : (protocol Rules.tracks E).wp (f false) Q c₁)
    (hok : ∀ c₂, c.With i .dirty c₂ → (protocol Rules.tracks E).wp (f true) Q c₂) :
    (protocol Rules.tracks E).wp (Client.bcopyin i off src n >>= f) Q c₁ := by
  obtain ⟨b, d, hheld⟩ := hw.held
  refine ⟨show (c₁.held i).isSome by rw [hheld]; rfl, ?_⟩
  rintro ok _ (⟨-, rfl, rfl⟩ | ⟨htrue, x, d', hx, rfl⟩)
  · exact hfail
  · rw [htrue rfl]
    exact hok _ (hw.hold (x := ⟨x.blockno, d', .dirty⟩) rfl)

end Buffer

/-! ### `fs.c` -/

section Code

variable {F : Sig} (sb : Superblock)

open Fs

theorem op (o : FsOp F) : Neutral (Fs.op o : FsM (Fin NBUF) F _) := ext (E := FsSig F) o

theorem wp_panic {msg : String} {c : Session} {Q : α → Session → Prop} :
    (protocol Rules.tracks (FsSig F)).wp (Fs.panic msg : FsM (Fin NBUF) F α) Q c := by
  refine ⟨trivial, ?_⟩
  rintro ⟨⟩

theorem panic (msg : String) : Neutral (Fs.panic msg : FsM (Fin NBUF) F α) := fun _ => wp_panic

theorem bzero (b : Nat) : Neutral (Fs.bzero b : FsM (Fin NBUF) F Unit) :=
  bread fun _ _ _ hw => bstore hw fun _ hw => logWrite hw fun _ hw => brelse_last hw

theorem ballocFrom (fuel : Nat) : ∀ b, Neutral (Fs.ballocFrom sb fuel b : FsM (Fin NBUF) F Uint) := by
  induction fuel with
  | zero =>
    intro b
    rw [Fs.ballocFrom]
    exact panic _
  | succ fuel ih =>
    intro b
    rw [Fs.ballocFrom]
    split
    · refine bread fun c i c₁ hw => bdata hw fun d => ?_
      split
      · refine bstore hw fun _ hw => logWrite hw fun _ hw => brelse hw ?_
        exact bind (bzero _) fun _ => pure _
      · exact brelse hw (ih _)
    · exact panic _

theorem balloc : Neutral (Fs.balloc sb : FsM (Fin NBUF) F Uint) := ballocFrom sb _ _

theorem bfree (b : Nat) : Neutral (Fs.bfree sb b : FsM (Fin NBUF) F Unit) := by
  refine bread fun c i c₁ hw => bdata hw fun d => ?_
  split
  · exact bstore hw fun _ hw => logWrite hw fun _ hw => brelse_last hw
  · exact wp_panic

theorem iallocFrom (dev : Nat) (type : Short) (fuel : Nat) :
    ∀ inum, Neutral (Fs.iallocFrom sb dev type fuel inum : FsM (Fin NBUF) F (Fin NINODE)) := by
  induction fuel with
  | zero =>
    intro inum
    rw [Fs.iallocFrom]
    exact panic _
  | succ fuel ih =>
    intro inum
    rw [Fs.iallocFrom]
    split
    · refine bread fun c i c₁ hw => bdata hw fun d => ?_
      split
      · exact bstore hw fun _ hw => logWrite hw fun _ hw => brelse hw (op _)
      · exact brelse hw (ih _)
    · exact panic _

theorem iupdate (ip : Fin NINODE) : Neutral (Fs.iupdate sb ip : FsM (Fin NBUF) F Unit) :=
  bind (op _) fun _ => bread fun _ _ _ hw => bdata hw fun _ => bstore hw fun _ hw =>
    logWrite hw fun _ hw => brelse_last hw

theorem ilock (ip : Fin NINODE) : Neutral (Fs.ilock sb ip : FsM (Fin NBUF) F Unit) := by
  refine bind (op _) fun ref => ?_
  split
  · exact panic _
  · refine bind (op _) fun _ => bind (op _) fun n => ?_
    split
    · exact pure _
    · refine bread fun c i c₁ hw => bdata hw fun d => frame (op _) hw fun _ _ hw => brelse hw ?_
      refine bind (op _) fun _ => bind (op _) fun n => ?_
      split
      · exact panic _
      · exact pure _

theorem newAddr (ip : Fin NINODE) (j : Nat) : Neutral (Fs.newAddr sb ip j : FsM (Fin NBUF) F Uint) :=
  bind (balloc sb) fun _ => bind (op _) fun _ => bind (op _) fun _ => pure _

theorem bmap (ip : Fin NINODE) (bn : Nat) : Neutral (Fs.bmap sb ip bn : FsM (Fin NBUF) F Uint) := by
  refine bind (op _) fun n => ?_
  split
  · split
    · exact newAddr sb ip _
    · exact pure _
  · split
    · refine bind ?_ fun addr => bread fun c i c₁ hw => bdata hw fun d => ?_
      · unfold bmapIndirect
        split
        · exact newAddr sb ip _
        · exact pure _
      · split
        · exact frame (balloc sb) hw fun _ _ hw => bstore hw fun _ hw => logWrite hw fun _ hw =>
            brelse hw (pure _)
        · exact brelse hw (pure _)
    · exact panic _

theorem itruncDirect (ip : Fin NINODE) (is : List Nat) :
    Neutral (Fs.itruncDirect sb ip is : FsM (Fin NBUF) F Unit) := by
  induction is with
  | nil => exact pure _
  | cons i is ih =>
    refine bind (op _) fun n => ?_
    split
    · exact bind (bfree sb _) fun _ => bind (op _) fun _ => ih
    · exact ih

theorem bfreeEntries (as : List Uint) : Neutral (Fs.bfreeEntries sb as : FsM (Fin NBUF) F Unit) := by
  induction as with
  | nil => exact pure _
  | cons a as ih =>
    rw [Fs.bfreeEntries]
    split
    · exact bind (bfree sb _) fun _ => ih
    · exact ih

section

variable (ip : Fin NINODE)
include ip

theorem itrunc : Neutral (Fs.itrunc sb ip : FsM (Fin NBUF) F Unit) := by
  refine bind (itruncDirect sb ip _) fun _ => bind ?_ fun _ => bind (op _) fun _ =>
    bind (op _) fun _ => iupdate sb ip
  refine bind (op _) fun n => ?_
  split
  · exact bread fun _ _ _ hw => bdata hw fun _ => frame (bfreeEntries sb _) hw fun _ _ hw =>
      brelse hw (bind (bfree sb _) fun _ => op _)
  · exact pure _

theorem iput : Neutral (Fs.iput sb ip : FsM (Fin NBUF) F Unit) := by
  refine bind (op _) fun last => ?_
  split
  · exact bind (itrunc sb ip) fun _ => bind (op _) fun _ => bind (op _) fun _ => bind (iupdate sb ip) fun _ =>
      bind (op _) fun _ => bind (op _) fun _ => op _
  · exact pure _

theorem iunlockput : Neutral (Fs.iunlockput sb ip : FsM (Fin NBUF) F Unit) :=
  bind (op _) fun _ => iput sb ip

theorem readiFrom (n fuel : Nat) : ∀ dst tot off acc,
    Neutral (Fs.readiFrom sb ip n fuel dst tot off acc : FsM (Fin NBUF) F _) := by
  induction fuel with
  | zero => exact fun _ _ _ _ => pure _
  | succ fuel ih =>
    intro dst tot off acc
    rw [Fs.readiFrom]
    split
    · refine bind (bmap sb ip _) fun addr => bread fun c i c₁ hw => bdata hw fun d => ?_
      dsimp only
      split
      · exact brelse hw (ih _ _ _ _)
      · exact brelse hw (pure _)
    · exact pure _

theorem readiStored (dst : Dst) (off n : Nat) : Neutral (Fs.readiStored sb ip dst off n : FsM (Fin NBUF) F _) := by
  refine bind (op _) fun i => ?_
  split
  · exact pure _
  · exact readiFrom sb ip _ _ _ _ _ _

theorem readi (dst : Dst) (off n : Nat) : Neutral (Fs.readi sb ip dst off n : FsM (Fin NBUF) F (List UInt8)) :=
  bind (readiStored sb ip dst off n) fun _ => pure _

theorem writeiFrom (n fuel : Nat) : ∀ src tot off,
    Neutral (Fs.writeiFrom sb ip n fuel src tot off : FsM (Fin NBUF) F Nat) := by
  induction fuel with
  | zero => exact fun _ _ _ => pure _
  | succ fuel ih =>
    intro src tot off
    rw [Fs.writeiFrom]
    split
    · refine bind (bmap sb ip _) fun addr => bread fun c i c₁ hw => ?_
      refine bcopyin hw (brelse hw (pure _)) fun _ hw => logWrite hw fun _ hw => brelse hw (ih _ _ _)
    · exact pure _

theorem writei (src : Src) (off n : Nat) : Neutral (Fs.writei sb ip src off n : FsM (Fin NBUF) F Int) := by
  refine bind (op _) fun i => ?_
  split
  · exact pure _
  split
  · exact pure _
  refine bind (writeiFrom sb ip n n src 0 off) fun off => ?_
  split
  · refine bind (op _) fun i => bind ?_ fun _ => bind (iupdate sb ip) fun _ => pure _
    split
    · exact op _
    · exact pure _
  · exact pure _

end

theorem dirlookupFrom (dp : Fin NINODE) (n : Inode) (name : List UInt8) (fuel : Nat) : ∀ off,
    Neutral (Fs.dirlookupFrom sb dp n name fuel off : FsM (Fin NBUF) F _) := by
  induction fuel with
  | zero => exact fun _ => pure _
  | succ fuel ih =>
    intro off
    rw [Fs.dirlookupFrom]
    split
    · refine bind (readi sb dp _ _ _) fun de => ?_
      split_ifs
      · exact panic _
      · exact ih _
      · exact bind (op _) fun _ => pure _
      · exact ih _
    · exact pure _

theorem dirlookup (dp : Fin NINODE) (name : List UInt8) : Neutral (Fs.dirlookup sb dp name : FsM (Fin NBUF) F _) := by
  refine bind (op _) fun n => ?_
  split
  · exact panic _
  · exact dirlookupFrom sb dp n name _ _

theorem dirlinkFrom (dp : Fin NINODE) (n : Inode) (fuel : Nat) : ∀ off,
    Neutral (Fs.dirlinkFrom sb dp n fuel off : FsM (Fin NBUF) F _) := by
  induction fuel with
  | zero => exact fun _ => pure _
  | succ fuel ih =>
    intro off
    rw [Fs.dirlinkFrom]
    split
    · refine bind (readi sb dp _ _ _) fun de => ?_
      split_ifs
      · exact panic _
      · exact pure _
      · exact ih _
    · exact pure _

theorem dirlink (dp : Fin NINODE) (name : List UInt8) (inum : Nat) :
    Neutral (Fs.dirlink sb dp name inum : FsM (Fin NBUF) F Int) := by
  refine bind (dirlookup sb dp name) fun found => ?_
  split
  · exact bind (iput sb _) fun _ => pure _
  · refine bind (op _) fun n => bind (dirlinkFrom sb dp n _ _) fun off => bind (writei sb dp _ _ _) fun r => ?_
    split
    · exact panic _
    · exact pure _

theorem namexFrom (parent : Bool) (fuel : Nat) : ∀ ip path name,
    Neutral (Fs.namexFrom sb parent fuel ip path name : FsM (Fin NBUF) F _) := by
  induction fuel with
  | zero => exact fun _ _ _ => pure _
  | succ fuel ih =>
    intro ip path name
    rw [Fs.namexFrom]
    split
    · split
      · exact bind (iput sb ip) fun _ => pure _
      · exact pure _
    · refine bind (ilock sb ip) fun _ => bind (op _) fun n => ?_
      split_ifs
      · exact bind (iunlockput sb ip) fun _ => pure _
      · exact bind (op _) fun _ => pure _
      · refine bind (dirlookup sb ip _) fun found => ?_
        split
        · exact bind (iunlockput sb ip) fun _ => pure _
        · exact bind (iunlockput sb ip) fun _ => ih _ _ _

theorem namex (cwd : Fin NINODE) (path : List UInt8) (parent : Bool) :
    Neutral (Fs.namex sb cwd path parent : FsM (Fin NBUF) F _) := by
  unfold Fs.namex
  split
  · exact bind (op _) fun _ => namexFrom sb _ _ _ _ _
  · exact bind (op _) fun _ => namexFrom sb _ _ _ _ _

theorem namei (cwd : Fin NINODE) (path : List UInt8) : Neutral (Fs.namei sb cwd path : FsM (Fin NBUF) F _) :=
  bind (namex sb cwd path _) fun _ => pure _

/-! ### `sysfile.c` and `file.c` -/

theorem isdiremptyFrom (dp : Fin NINODE) (n : Inode) (fuel : Nat) : ∀ off,
    Neutral (Fs.isdiremptyFrom sb dp n fuel off : FsM (Fin NBUF) F Bool) := by
  induction fuel with
  | zero => exact fun _ => pure _
  | succ fuel ih =>
    intro off
    rw [Fs.isdiremptyFrom]
    split
    · refine bind (readi sb dp _ _ _) fun de => ?_
      split_ifs
      · exact panic _
      · exact pure _
      · exact ih _
    · exact pure _

theorem createDots (dp ip : Fin NINODE) (inum : Nat) :
    Neutral (Fs.createDots sb dp ip inum : FsM (Fin NBUF) F Unit) := by
  refine bind (op _) fun d => bind (op _) fun _ => bind (iupdate sb dp) fun _ =>
    bind (dirlink sb ip _ _) fun r => ?_
  split
  · exact panic _
  · refine bind (dirlink sb ip _ _) fun r => ?_
    split
    · exact panic _
    · exact pure _

theorem createAt (dp : Fin NINODE) (name : List UInt8) (type major minor : Short) :
    Neutral (Fs.createAt sb dp name type major minor : FsM (Fin NBUF) F _) := by
  refine bind (op _) fun d => bind (iallocFrom sb _ _ _ _) fun ip => bind (ilock sb ip) fun _ =>
    bind (op _) fun n => bind (op _) fun _ => bind (iupdate sb ip) fun _ => bind ?_ fun _ =>
      bind (dirlink sb dp _ _) fun r => ?_
  · split
    · exact createDots sb dp ip _
    · exact pure _
  · split
    · exact panic _
    · exact bind (iunlockput sb dp) fun _ => pure _

theorem create (cwd : Fin NINODE) (path : List UInt8) (type major minor : Short) :
    Neutral (Fs.create sb cwd path type major minor : FsM (Fin NBUF) F _) := by
  refine bind (namex sb cwd path true) fun found => ?_
  split
  · exact pure _
  · refine bind (ilock sb _) fun _ => bind (dirlookup sb _ _) fun found => ?_
    split
    · refine bind (iunlockput sb _) fun _ => bind (ilock sb _) fun _ => bind (op _) fun n => ?_
      split
      · exact pure _
      · exact bind (iunlockput sb _) fun _ => pure _
    · exact createAt sb _ _ _ _ _

end Code

/-! Operations: a program that ends the running one, and a program outside of operations. -/

def Ends (m : Prog (Client (Fin NBUF) E) α) : Prop :=
  ∀ c, c.op.isSome → (protocol Rules.tracks E).wp m (fun _ c' => c'.held = c.held ∧ c'.op = none) c

def Whole (m : Prog (Client (Fin NBUF) E) α) : Prop :=
  ∀ c, c.op = none → (protocol Rules.tracks E).wp m (fun _ c' => c'.held = c.held ∧ c'.op = none) c

theorem Neutral.whole (hm : Neutral m) : Whole m := by
  intro c hc
  refine wp_mono (fun _ c' h => ⟨h.1, ?_⟩) (hm c)
  have hop := h.2
  rw [hc] at hop
  simpa using hop

theorem Ends.bind {f : α → Prog (Client (Fin NBUF) E) β} (hm : Neutral m) (hf : ∀ a, Ends (f a)) : Ends (m >>= f) := by
  intro c hc
  refine wp_seq (hm c) fun a c₁ h => ?_
  refine wp_mono (fun _ c' h' => ⟨h'.1.trans h.1, h'.2⟩) (hf a c₁ (h.2.trans hc))

theorem Whole.bind {f : α → Prog (Client (Fin NBUF) E) β} (hm : Whole m) (hf : ∀ a, Whole (f a)) : Whole (m >>= f) := by
  intro c hc
  refine wp_seq (hm c hc) fun a c₁ h => ?_
  exact wp_mono (fun _ c' h' => ⟨h'.1.trans h.1, h'.2⟩) (hf a c₁ h.2)

theorem Ends.endOp : Ends (Client.endOp : Prog (Client (Fin NBUF) E) Unit) := by
  intro c hc
  refine ⟨⟨hc, nofun⟩, ?_⟩
  rintro ⟨⟩ _ rfl
  exact ⟨rfl, rfl⟩

/-- What runs after the end of the operation. -/
theorem Ends.then {f : α → Prog (Client (Fin NBUF) E) β} (hm : Ends m) (hf : ∀ a, Whole (f a)) : Ends (m >>= f) := by
  intro c hc
  refine wp_seq (hm c hc) fun a c₁ h => ?_
  exact wp_mono (fun _ c' h' => ⟨h'.1.trans h.1, h'.2⟩) (hf a c₁ h.2)

theorem Ends.ret (a : α) : Ends (Client.endOp >>= fun _ => Pure.pure a : Prog (Client (Fin NBUF) E) α) :=
  Ends.endOp.then fun _ => (pure a).whole

theorem Whole.beginOp {f : Unit → Prog (Client (Fin NBUF) E) α} (hf : Ends (f ())) :
    Whole (Client.beginOp >>= f) := fun c hc =>
  Protocol.beginOp rfl hc (hf ⟨some ∅, c.held⟩ rfl)

section Calls

variable (sb : Superblock)

open Fs

variable {F : Sig}

theorem putFail (ip : Fin NINODE) : Ends (Fs.putFail sb ip : FsM (Fin NBUF) F Int) :=
  .bind (iunlockput sb ip) fun _ => .ret _

theorem linkBad (ip : Fin NINODE) : Ends (Fs.linkBad sb ip : FsM (Fin NBUF) F Int) :=
  .bind (ilock sb ip) fun _ => .bind (op _) fun _ => .bind (op _) fun _ => .bind (iupdate sb ip) fun _ => putFail sb ip

theorem linkTo (cwd ip : Fin NINODE) (n : Inode) (new : List UInt8) :
    Ends (Fs.linkTo sb cwd ip n new : FsM (Fin NBUF) F Int) := by
  refine .bind (namex sb cwd new true) fun found => ?_
  split
  · exact linkBad sb ip
  · rename_i dp name
    refine .bind (ilock sb dp) fun _ => .bind (op _) fun d => ?_
    split
    · exact .bind (iunlockput sb dp) fun _ => linkBad sb ip
    · refine .bind (dirlink sb dp name _) fun r => ?_
      split
      · exact .bind (iunlockput sb dp) fun _ => linkBad sb ip
      · exact .bind (iunlockput sb dp) fun _ => .bind (iput sb ip) fun _ => .ret _

theorem sysLink (cwd : Fin NINODE) (old new : List UInt8) :
    Whole (Fs.sysLink sb cwd old new : FsM (Fin NBUF) F Int) := by
  refine .beginOp (.bind (namei sb cwd old) fun found => ?_)
  split
  · exact .ret _
  · rename_i ip
    refine .bind (ilock sb ip) fun _ => .bind (op _) fun n => ?_
    split
    · exact putFail sb ip
    · exact .bind (op _) fun _ => .bind (iupdate sb ip) fun _ => .bind (op _) fun _ => linkTo sb cwd ip n new

theorem unlinkAt (dp : Fin NINODE) (name : List UInt8) : Ends (Fs.unlinkAt sb dp name : FsM (Fin NBUF) F Int) := by
  unfold Fs.unlinkAt
  split
  · exact putFail sb dp
  · refine .bind (dirlookup sb dp name) fun found => ?_
    split
    · exact putFail sb dp
    · rename_i ip off
      refine .bind (ilock sb ip) fun _ => .bind (op _) fun n => ?_
      split
      · exact fun _ _ => wp_panic
      · refine .bind ?_ fun full => ?_
        · unfold dirFull
          split
          · exact bind (bind (op _) fun _ => isdiremptyFrom sb ip _ _ _) fun _ => pure _
          · exact pure _
        split
        · exact .bind (iunlockput sb ip) fun _ => putFail sb dp
        · refine .bind (writei sb dp _ _ _) fun r => ?_
          split
          · exact fun _ _ => wp_panic
          · refine .bind ?_ fun _ => .bind (iunlockput sb dp) fun _ => .bind (op _) fun _ =>
              .bind (op _) fun _ => .bind (iupdate sb ip) fun _ => .bind (iunlockput sb ip) fun _ => .ret _
            split
            · exact bind (op _) fun _ => bind (op _) fun _ => iupdate sb dp
            · exact pure _

theorem sysUnlink (cwd : Fin NINODE) (path : List UInt8) : Whole (Fs.sysUnlink sb cwd path : FsM (Fin NBUF) F Int) := by
  refine .beginOp (.bind (namex sb cwd path true) fun found => ?_)
  split
  · exact .ret _
  · exact .bind (ilock sb _) fun _ => unlinkAt sb _ _

theorem fdallocFrom (f : Fin NFILE) (fds : List Nat) : Neutral (Fs.fdallocFrom f fds : FsM (Fin NBUF) FileSig _) := by
  induction fds with
  | nil => exact pure _
  | cons fd fds ih =>
    refine bind (op _) fun o => ?_
    split
    · exact bind (op _) fun _ => pure _
    · exact ih

theorem argfd (fd : Int) : Neutral (Fs.argfd fd : FsM (Fin NBUF) FileSig _) := by
  unfold Fs.argfd
  split
  · exact pure _
  · exact op _

section

variable (f : Fin NFILE)
include f

theorem fileclose : Whole (Fs.fileclose sb f : FsM (Fin NBUF) FileSig Unit) := by
  refine .bind (op _).whole fun last => ?_
  split
  · exact (pure _).whole
  · split
    · exact (bind (op _) fun _ => pure _).whole
    · exact .beginOp (.bind (iput sb _) fun _ => .endOp)
    · exact .beginOp (.bind (iput sb _) fun _ => .endOp)
    · exact (pure _).whole

theorem filestat (dst : Dst) : Neutral (Fs.filestat sb f dst : FsM (Fin NBUF) FileSig Int) := by
  have hstat : ∀ ip, Neutral (statAt sb ip dst : FsM (Fin NBUF) FileSig Int) := by
    intro ip
    refine bind (ilock sb ip) fun _ => bind (op _) fun _ => bind (op _) fun _ => ?_
    split <;> exact pure _
  refine bind (op _) fun ff => ?_
  split
  · exact hstat _
  · exact hstat _
  · exact pure _

theorem fileread (dst : Dst) (n : Int) : Neutral (Fs.fileread sb f dst n : FsM (Fin NBUF) FileSig _) := by
  refine bind (op _) fun ff => ?_
  split
  · split
    · exact bind (op _) fun _ => pure _
    · split
      · exact pure _
      · exact bind (op _) fun _ => pure _
    · refine bind (ilock sb _) fun _ => bind (op _) fun ff => bind (readiStored sb _ _ _ _) fun bytes =>
        bind ?_ fun _ => bind (op _) fun _ => pure _
      split
      · exact op _
      · exact pure _
    · exact panic _
  · exact pure _

theorem filewriteFrom (ip : Fin NINODE) (src : Src) (n fuel : Nat) : ∀ i,
    Whole (Fs.filewriteFrom sb f ip src n fuel i : FsM (Fin NBUF) FileSig Nat) := by
  induction fuel with
  | zero => exact fun _ => (pure _).whole
  | succ fuel ih =>
    intro i
    rw [Fs.filewriteFrom]
    split
    · refine .bind (.beginOp (.bind (ilock sb ip) fun _ => .bind ?_ fun r => .bind (op _) fun _ => .ret _)) fun r => ?_
      · refine bind (op _) fun ff => bind (writei sb ip _ _ _) fun r => bind ?_ fun _ => pure _
        split
        · exact op _
        · exact pure _
      · split_ifs
        · exact (pure _).whole
        · exact (panic _).whole
        · exact ih _
    · exact (pure _).whole

theorem filewrite (src : Src) (n : Int) : Whole (Fs.filewrite sb f src n : FsM (Fin NBUF) FileSig Int) := by
  refine .bind (op _).whole fun ff => ?_
  split
  · split
    · exact (op _).whole
    · split
      · exact (pure _).whole
      · exact (op _).whole
    · refine .bind (filewriteFrom sb f _ src _ _ _) fun i => ?_
      split <;> exact (pure _).whole
    · exact (panic _).whole
  · exact (pure _).whole

end

theorem openAt (ip : Fin NINODE) (omode : Nat) : Ends (Fs.openAt sb ip omode : FsM (Fin NBUF) FileSig Int) := by
  refine .bind (op _) fun n => ?_
  split
  · exact putFail sb ip
  · refine .bind (op _) fun f => ?_
    split
    · exact putFail sb ip
    · refine .bind (fdallocFrom _ _) fun fd => ?_
      split
      · exact .bind (op _) fun _ => putFail sb ip
      · refine .bind (op _) fun ff => .bind (op _) fun _ => .bind ?_ fun _ => .bind (op _) fun _ => .ret _
        split
        · exact itrunc sb ip
        · exact pure _

theorem sysOpen (path : List UInt8) (omode : Nat) : Whole (Fs.sysOpen sb path omode : FsM (Fin NBUF) FileSig Int) := by
  refine .beginOp (.bind (op _) fun cwd => ?_)
  split
  · refine .bind (create sb _ _ _ _ _) fun ip => ?_
    split
    · exact .ret _
    · exact openAt sb _ omode
  · refine .bind (namei sb cwd path) fun ip => ?_
    split
    · exact .ret _
    · refine .bind (ilock sb _) fun _ => .bind (op _) fun n => ?_
      split
      · exact putFail sb _
      · exact openAt sb _ omode

theorem sysMake (path : Option (List UInt8)) (type major minor : Short) :
    Whole (Fs.sysMake sb path type major minor : FsM (Fin NBUF) FileSig Int) := by
  refine .beginOp ?_
  split
  · exact .ret _
  · refine .bind (op _) fun cwd => .bind (create sb _ _ _ _ _) fun ip => ?_
    split
    · exact .ret _
    · exact .bind (iunlockput sb _) fun _ => .ret _

theorem sysChdir (path : Option (List UInt8)) : Whole (Fs.sysChdir sb path : FsM (Fin NBUF) FileSig Int) := by
  refine .beginOp ?_
  split
  · exact .ret _
  · refine .bind (op _) fun cwd => .bind (namei sb _ _) fun ip => ?_
    split
    · exact .ret _
    · refine .bind (ilock sb _) fun _ => .bind (op _) fun n => ?_
      split
      · exact putFail sb _
      · exact .bind (op _) fun _ => .bind (iput sb _) fun _ => .then .endOp fun _ =>
          (bind (op _) fun _ => pure _).whole

/-- A system call that starts with a descriptor. -/
theorem withFd {fd : Int} {g : Fin NFILE → FsM (Fin NBUF) FileSig Int} (hg : ∀ f, Whole (g f)) :
    Whole (Fs.argfd fd >>= fun f => match f with
      | none => Pure.pure (-1)
      | some f => g f) := by
  refine .bind (argfd fd).whole fun f => ?_
  split
  · exact (pure _).whole
  · exact hg _

theorem run (c : Syscall) : Whole (c.run sb : FsM (Fin NBUF) FileSig Int) := by
  cases c with
  | dup fd =>
    refine withFd fun f => (bind (fdallocFrom f _) fun fd => ?_).whole
    split
    · exact pure _
    · exact bind (op _) fun _ => pure _
  | read fd dst n => exact withFd fun f => (bind (fileread sb f dst n) fun _ => pure _).whole
  | write fd src n => exact withFd fun f => filewrite sb f src n
  | close fd =>
    exact withFd fun f => .bind (op _).whole fun _ => .bind (fileclose sb f) fun _ => (pure _).whole
  | fstat fd dst => exact withFd fun f => (filestat sb f dst).whole
  | link old new =>
    cases old with
    | none => exact (pure _).whole
    | some old => cases new with
      | none => exact (pure _).whole
      | some new => exact .bind (op _).whole fun cwd => sysLink sb cwd old new
  | unlink path =>
    cases path with
    | none => exact (pure _).whole
    | some path => exact .bind (op _).whole fun cwd => sysUnlink sb cwd path
  | «open» path omode =>
    cases path with
    | none => exact (pure _).whole
    | some path => exact sysOpen sb path omode
  | mkdir path => exact sysMake sb path _ _ _
  | mknod path major minor => exact sysMake sb path _ _ _
  | chdir path => exact sysChdir sb path

theorem runAll (cs : List Syscall) : Whole (Syscall.runAll sb cs : FsM (Fin NBUF) FileSig Unit) := by
  induction cs with
  | nil => exact (pure _).whole
  | cons c cs ih => exact .bind (run sb c) fun _ => ih

end Calls

end Tracked

theorem follows_runAll (sb : Superblock) (cs : List Syscall) :
    Follows Rules.tracks (Syscall.runAll sb cs : FsM (Fin NBUF) FileSig Unit) :=
  wp_mono (fun _ _ _ => trivial) (Tracked.runAll sb cs Session.start rfl)

namespace Kernel

variable {P X : Type} [Procs P] {size : Nat} {start : Nat} {disk : Nat → Block} {x : X} {p₀ : P}
  {ext : P → (e : (FsSig FileSig).Op) → X → Outcome X ((FsSig FileSig).Ret e)}
  {c : Conf (Prim (FsSig FileSig)) P (Kernel P X)}

/-- **No unlogged modification.** Whatever system calls the processes make, and whatever inode cache and
file table they run on: in a run whose steps all meet `Guard`, from a disk whose log is empty, a state
in which no buffer is locked has in every valid buffer either a logged block or the content of the disk. -/
theorem clean_of_unlocked (sb : Superblock) (calls : P → List Syscall) (hempty : headN (disk start) ≤ 0)
    (hruns : Runs size ext Guard start disk x p₀ (fun p => Syscall.runAll sb (calls p)) c)
    (hfree : ∀ i, (c.st.cache.buf i).lock = none) (i : Fin NBUF) (hvalid : (c.st.cache.buf i).valid = true)
    (hlog : (c.st.cache.buf i).blockno ∉ c.st.log.log.head) :
    (c.st.cache.buf i).data = c.st.cache.disk (c.st.cache.buf i).blockno := by
  obtain ⟨R, ρ, hR, hinv, -⟩ := hruns.inv (R := Rules.tracks) hempty (fun _ _ => trivial)
    (fun _ _ _ _ h => h) fun p => follows_runAll sb (calls p)
  have htracked : R.tracked := by
    rcases hR with rfl | rfl <;> rfl
  have hfreed : ∀ p h, (ρ p).bufs.held i = some h → h.status ≠ .dirty := by
    intro p h hheld
    have hlock := (hinv.refs.lock i p).2 (Or.inl (by rw [hheld]; rfl))
    rw [hfree i] at hlock
    cases hlock
  rcases (hinv.data htracked).clean i hvalid hfreed with hpend | hdisk
  · exact absurd (List.mem_of_mem_drop hpend) hlog
  · exact hdisk

/-- The state of the inode cache and of the file table. -/
abbrev Files : Type := ICache (Fin NPROC) × FileState (Fin NPROC)

/-- A disk as `mkfs` lays it out, whose root directory has one file, of ten bytes. -/
def image : Nat → Block
  | 32 => (Block.zero.putInode 1 ⟨T_DIR, 0, 0, 1, 48, fun j => if j = 0 then 46 else 0⟩).putInode 2
      ⟨T_FILE, 0, 0, 1, 10, fun j => if j = 0 then 47 else 0⟩
  | 45 => fun i => if i.val < 6 then 255 else 0
  | 46 => Block.zero.copy 0 (dirent 1 [46] ++ dirent 1 [46, 46] ++ dirent 2 [102])
  | _ => Block.zero

/-- User memory with one page of sevens. -/
def onePage (va : Nat) : Option (Bytes PGSIZE) := if va = 0 then some fun _ => 7 else none

/-- Process 0 opens the file and writes ten bytes to it. -/
def overwrite (addr : Nat) (p : Fin NPROC) : List Syscall :=
  if p = 0 then [.open (some [47, 102]) O_RDWR, .write 0 (.user onePage addr) 10] else []

/-- The states of a run in which process 0 overwrites the file. -/
abbrev ImageRuns (cond : Kernel (Fin NPROC) Files → Fin NPROC → PrimOp (FsSig FileSig) → Prop) (addr : Nat) :
    Conf (Prim (FsSig FileSig)) (Fin NPROC) (Kernel (Fin NPROC) Files) → Prop :=
  Runs LOGSIZE (FsOp.exec FileState.exec) cond 2 image (ICache.userinit 0, FileState.init 0) 0
    fun p => Syscall.runAll ⟨1000, 200, 32, 45⟩ (overwrite addr p)

/-- No buffer is locked, and the buffer of the file has what was written. -/
def written (c : Conf (Prim (FsSig FileSig)) (Fin NPROC) (Kernel (Fin NPROC) Files)) : Prop :=
  (∀ i, (c.st.cache.buf i).lock = none) ∧ ∃ i, (c.st.cache.buf i).valid ∧
    (c.st.cache.buf i).blockno = 47 ∧ 47 ∉ c.st.log.log.head ∧ (c.st.cache.buf i).data.get 0 = 7

instance (c) : Decidable (written c) := inferInstanceAs (Decidable (_ ∧ _))

/-- The test for `Guard`. -/
def guarded (s : Kernel (Fin NPROC) Files) (p : Fin NPROC) : PrimOp (FsSig FileSig) → Bool
  | .logCheck _ => (s.log.op p).isSome
  | .copyin _ _ src n => (eitherCopyin src n).2
  | _ => true

/-- A write of ten mapped bytes. -/
theorem clean_of_unlocked_written : ∃ c, ImageRuns Guard 0 c ∧ written c ∧ (c.st.cache.disk 47).get 0 = 7 := by
  obtain ⟨c, hruns, hwritten⟩ : ∃ c, ImageRuns Guard 0 c ∧ written c :=
    exists_runs guarded
      (fun s p o hok => by
        cases o <;> first | trivial | exact hok | exact fun hfail => absurd hok (by simp [guarded, hfail]))
      (List.replicate 18 0) (List.replicate 183 0) _ (by decide)
  have ⟨hfree, i, hvalid, hb, hlog, hdata⟩ := hwritten
  have hclean := clean_of_unlocked ⟨1000, 200, 32, 45⟩ (overwrite 0) (by decide) hruns hfree i hvalid
    (by rwa [hb])
  rw [hb] at hclean
  exact ⟨c, hruns, hwritten, hclean ▸ hdata⟩

/-- Of ten bytes at 4091 five are mapped: `either_copyin` fails after it changed the buffer of the file, and
`writei` releases the buffer without `log_write`. -/
theorem failed_write_modifies :
    ∃ c, ImageRuns (fun _ _ _ => True) 4091 c ∧ written c ∧ (c.st.cache.disk 47).get 0 = 0 :=
  exists_runs_free (List.replicate 18 0) (List.replicate 150 0) _ (by decide)

end Kernel

end Xv6
