import Xv6.Seq.Filewrite
import Xv6.Lib.Pool
import Xv6.Lib.Threads

/-! Several processes write to one open file. Each chunk is written with the inode locked, and the offset is
read and advanced inside; so the chunks follow each other in the order in which the lock was had, however
the calls of the processes interleave. -/

namespace Xv6

open Lib Function Machine Outcome

/-! ### Calls inside a section -/

namespace Fs

open Client

/-- Calls that leave references, sleep locks, operations and open files alone. -/
def Quiet {F : Sig} : ClientOp Nat (FsSig F) → Prop
  | .beginOp | .endOp => False
  | .ext (.panic _) | .ext (.iref _) | .ext (.iload _) | .ext (.istore _ _) | .ext (.setValid _ _) => True
  | .ext _ => False
  | _ => True

variable {F : Sig} (sb : Superblock)

theorem quiet_panic {α : Type} (msg : String) : (panic msg : FsM Nat F α).All Quiet := ⟨trivial, nofun⟩

theorem quiet_bzero (bno : Nat) : (bzero bno : FsM Nat F Unit).All Quiet :=
  .op_bind trivial fun _ => .op_bind trivial fun _ =>
    .op_bind trivial fun _ => (Prog.all_op _).2 trivial

theorem quiet_ballocFrom (fuel b : Nat) : (ballocFrom sb fuel b : FsM Nat F Uint).All Quiet := by
  induction fuel generalizing b with
  | zero => exact quiet_panic _
  | succ fuel ih =>
    rw [ballocFrom]
    split
    · refine .op_bind trivial fun bp => .op_bind trivial fun d => ?_
      split
      · exact .op_bind trivial fun _ => .op_bind trivial fun _ =>
          .op_bind trivial fun _ => .bind (quiet_bzero _) fun _ => trivial
      · exact .op_bind trivial fun _ => ih _
    · exact quiet_panic _

theorem quiet_newAddr (ip : Fin NINODE) (j : Nat) : (newAddr sb ip j : FsM Nat F Uint).All Quiet :=
  .bind (quiet_ballocFrom sb _ _) fun _ => .op_bind trivial fun _ => .op_bind trivial fun _ => trivial

theorem quiet_bmap (ip : Fin NINODE) (bn : Nat) : (bmap sb ip bn : FsM Nat F Uint).All Quiet := by
  refine .op_bind trivial fun n => ?_
  split
  · split
    · exact quiet_newAddr sb ip bn
    · trivial
  · split
    · refine .bind ?_ fun addr => ?_
      · unfold bmapIndirect
        split
        · exact quiet_newAddr sb ip NDIRECT
        · trivial
      · refine .op_bind trivial fun bp => .op_bind trivial fun d => ?_
        split
        · exact .bind (quiet_ballocFrom sb _ _) fun a => .op_bind trivial fun _ =>
            .op_bind trivial fun _ => .op_bind trivial fun _ => trivial
        · exact .op_bind trivial fun _ => trivial
    · exact quiet_panic _

theorem quiet_writeiFrom (ip : Fin NINODE) (n fuel : Nat) (src : Src) (tot off : Nat) :
    (writeiFrom sb ip n fuel src tot off : FsM Nat F Nat).All Quiet := by
  induction fuel generalizing src tot off with
  | zero => trivial
  | succ fuel ih =>
    rw [writeiFrom]
    split
    · refine .bind (quiet_bmap sb ip _) fun addr => .op_bind trivial fun bp =>
        .op_bind trivial fun ok => ?_
      split
      · exact .op_bind trivial fun _ => .op_bind trivial fun _ => ih _ _ _
      · exact .op_bind trivial fun _ => trivial
    · trivial

theorem quiet_iupdate (ip : Fin NINODE) : (iupdate sb ip : FsM Nat F Unit).All Quiet :=
  .op_bind trivial fun _ => .op_bind trivial fun _ => .op_bind trivial fun _ => .op_bind trivial fun _ =>
    .op_bind trivial fun _ => (Prog.all_op _).2 trivial

theorem quiet_writei (ip : Fin NINODE) (src : Src) (off n : Nat) : (writei sb ip src off n : FsM Nat F Int).All Quiet := by
  refine .op_bind trivial fun i => ?_
  split
  · trivial
  · split
    · trivial
    · refine .bind (quiet_writeiFrom sb ip _ _ _ _ _) fun off => ?_
      split
      · refine .op_bind trivial fun i => ?_
        refine .bind ?_ fun _ => ?_
        · split
          · exact (Prog.all_op _).2 trivial
          · trivial
        · exact .bind (quiet_iupdate sb ip) fun _ => trivial
      · trivial

end Fs

/-! ### Calls of other processes -/

namespace FsState

open Fs

variable {P X : Type} [DecidableEq P] {F : Sig} {more : P → (f : F.Op) → X → Outcome X (F.Ret f)} {p q : P}
  {s t : FsState P X} {α : Type} {o : ClientOp Nat (FsSig F)} {r : (Client Nat (FsSig F)).Ret o}

/-- What the calls on buffers and blocks leave alone. -/
theorem exec_block (h : exec more p o s = .ok r t)
    (hop : o ≠ .beginOp ∧ o ≠ .endOp) (hext : ∀ e, o ≠ .ext e) : t.icache = s.icache ∧ t.ext = s.ext ∧ t.op = s.op := by
  cases o with
  | bread dev b =>
    rw [exec_bread] at h
    cases hown : s.owner b with
    | none =>
      rw [hown] at h
      cases h
      exact ⟨rfl, rfl, rfl⟩
    | some q =>
      rw [hown] at h
      cases h
  | bdata b | bstore b d | bcopyin b off src n | bwrite b =>
    cases h
    exact ⟨rfl, rfl, rfl⟩
  | brelse b =>
    have h' : (if s.owner b = some p then .ok () (s.setOwner b none) else .panic "brelse" :
      Outcome (FsState P X) Unit) = .ok r t := h
    split at h' <;> cases h'
    exact ⟨rfl, rfl, rfl⟩
  | logWrite b =>
    have h' : (if s.op p then .ok () s else .panic "log_write outside of trans" :
      Outcome (FsState P X) Unit) = .ok r t := h
    split at h' <;> cases h'
    exact ⟨rfl, rfl, rfl⟩
  | beginOp => exact absurd rfl hop.1
  | endOp => exact absurd rfl hop.2
  | ext e => exact absurd rfl (hext e)

theorem exec_quiet (ho : Quiet o) (h : exec more p o s = .ok r t) :
    t.ext = s.ext ∧ ∀ ip, (t.icache.slot ip).lock = (s.icache.slot ip).lock ∧ t.ref ip = s.ref ip := by
  have hset : ∀ (ip : Fin NINODE) (x : ISlot P), x.lock = (s.icache.slot ip).lock → x.ref = (s.icache.slot ip).ref →
      ∀ j, ((s.icache.set ip x).slot j).lock = (s.icache.slot j).lock ∧ ((s.icache.set ip x).slot j).ref = s.ref j := by
    intro ip x hlock href j
    by_cases hj : j = ip
    · rw [hj, ICache.slot_set_self]
      exact ⟨hlock, href⟩
    · have hslot : (s.icache.set ip x).slot j = s.icache.slot j := update_of_ne hj ..
      rw [hslot]
      exact ⟨rfl, rfl⟩
  cases o with
  | beginOp | endOp => exact ho.elim
  | ext e =>
    cases e with
    | panic msg => cases h
    | iref ip | iload ip =>
      cases h
      exact ⟨rfl, fun _ => ⟨rfl, rfl⟩⟩
    | istore ip v | setValid ip v =>
      cases h
      exact ⟨rfl, hset ip _ rfl rfl⟩
    | _ => exact ho.elim
  | _ =>
    obtain ⟨hcache, hext, -⟩ := exec_block h (by simp) (by simp)
    refine ⟨hext, fun ip => ?_⟩
    rw [FsState.ref, hcache]
    exact ⟨rfl, rfl⟩

theorem exec_op (hq : q ≠ p) (h : exec more p o s = .ok r t) : t.op q = s.op q := by
  cases o with
  | beginOp | endOp =>
    cases h
    exact update_of_ne hq ..
  | ext e =>
    have h' : (FsOp.exec more p e (s.icache, s.ext)).mapState
      (fun c => ({ s with icache := c.1, ext := c.2 } : FsState P X)) = .ok r t := h
    obtain ⟨c, -, rfl⟩ := mapState_eq_ok.1 h'
    rfl
  | _ => exact congrFun (exec_block h ⟨nofun, nofun⟩ nofun).2.2 q

theorem exec_setOp (hq : q ≠ p) (o : ClientOp Nat (FsSig F)) (v : Bool) :
    exec more p o (s.setOp q v) = (exec more p o s).mapState fun t => t.setOp q v := by
  have hswap : ∀ w, (s.setOp q v).setOp p w = (s.setOp p w).setOp q v := by
    intro w
    unfold setOp
    rw [update_comm hq]
  cases o with
  | bread dev b =>
    rw [exec_bread, exec_bread, show (s.setOp q v).owner b = s.owner b from rfl]
    cases s.owner b <;> rfl
  | bdata b | bstore b d | bcopyin b off src n | bwrite b => rfl
  | brelse b =>
    show (if s.owner b = some p then .ok () ((s.setOp q v).setOwner b none) else .panic "brelse" :
      Outcome (FsState P X) Unit) =
      Outcome.mapState _ (if s.owner b = some p then .ok () (s.setOwner b none) else .panic "brelse")
    split <;> rfl
  | logWrite b =>
    have hop : (s.setOp q v).op p = s.op p := update_of_ne hq.symm ..
    show (if (s.setOp q v).op p then .ok () (s.setOp q v) else .panic "log_write outside of trans" :
      Outcome (FsState P X) Unit) =
      Outcome.mapState _ (if s.op p then .ok () s else .panic "log_write outside of trans")
    rw [hop]
    split <;> rfl
  | beginOp => exact congrArg _ (hswap true)
  | endOp => exact congrArg _ (hswap false)
  | ext e =>
    show (FsOp.exec more p e (s.icache, s.ext)).mapState _ = ((FsOp.exec more p e (s.icache, s.ext)).mapState _).mapState _
    cases FsOp.exec more p e (s.icache, s.ext) <;> rfl

theorem run_setOp (hq : q ≠ p) (m : FsM Nat F α) (v : Bool) (s : FsState P X) :
    (machine more).run p m (s.setOp q v) = ((machine more).run p m s).mapState fun t => t.setOp q v := by
  induction m generalizing s with
  | ret a => rfl
  | call o k ih =>
    have hexec : (machine more).exec p o (s.setOp q v) = ((machine more).exec p o s).mapState fun t => t.setOp q v :=
      exec_setOp hq o v
    rw [Machine.run, Machine.run, hexec]
    cases (machine more).exec p o s with
    | ok r t => exact ih r t
    | block => rfl
    | panic msg => rfl

theorem along_setOp (hq : q ≠ p) {A : ClientOp Nat (FsSig F) → Prop} {I : FsState P X → Prop}
    (hI : ∀ s v, I s → I (s.setOp q v)) {m : FsM Nat F α} (v : Bool) (h : (machine more).Along p A I m s) :
    (machine more).Along p A I m (s.setOp q v) := by
  induction m generalizing s with
  | ret a => exact hI s v h
  | call o k ih =>
    refine ⟨hI s v h.1, h.2.1, fun r t hexec => ?_⟩
    have heq : (machine more).exec p o (s.setOp q v) = ((machine more).exec p o s).mapState fun t => t.setOp q v :=
      exec_setOp hq o v
    rw [heq, mapState_eq_ok] at hexec
    obtain ⟨u, hexec, rfl⟩ := hexec
    exact ih r (h.2.2 r u hexec)

end FsState

/-! ### Where a process is in its call -/

namespace Fs

open Client

section Programs

variable (sb : Superblock) (f : Fin NFILE) (ip : Fin NINODE)

def leave (k : Int → FsM Nat FileSig Int) (r : Int) : FsM Nat FileSig Int := do
  iunlock ip
  Client.endOp
  k r

theorem chunk_eq (src : Src) (n1 : Nat) : chunk sb f ip src n1 =
    Client.beginOp >>= fun _ => ilock sb ip >>= fun _ => advance sb f ip src n1 >>= leave ip pure := rfl

variable (src : Src) (n : Nat)

def rest (fuel i : Nat) : FsM Nat FileSig Int := do
  let k ← filewriteFrom sb f ip src n fuel i
  if (k : Int) = n then pure (n : Int) else pure (-1)

/-- The call after the chunk at byte `i`, with the result `r`. -/
def next (fuel i : Nat) (r : Int) : FsM Nat FileSig Int := do
  let k ← (if r < 0 then pure i
    else if r ≠ (min (n - i) CHUNK : Nat) then panic "short filewrite"
    else filewriteFrom sb f ip src n fuel (i + min (n - i) CHUNK) : FsM Nat FileSig Nat)
  if (k : Int) = n then pure (n : Int) else pure (-1)

variable {n} {fuel i : Nat}

theorem rest_of_lt (hi : i < n) : rest sb f ip src n (fuel + 1) i = Client.beginOp >>= fun _ => ilock sb ip >>= fun _ =>
    advance sb f ip (src.add i) (min (n - i) CHUNK) >>= leave ip (next sb f ip src n fuel i) := by
  rw [rest, filewriteFrom, if_pos hi, chunk_eq]
  unfold leave next
  simp only [bind_assoc, pure_bind]

theorem rest_self (n : Nat) : rest sb f ip src n fuel n = pure (n : Int) := by
  have hloop : (filewriteFrom sb f ip src n fuel n : FsM Nat FileSig Nat) = pure n := by
    cases fuel with
    | zero => rfl
    | succ fuel => rw [filewriteFrom, if_neg (lt_irrefl n)]
  rw [rest, hloop, pure_bind, if_pos rfl]

theorem next_ok : next sb f ip src n fuel i (min (n - i) CHUNK : Nat) = rest sb f ip src n fuel (i + min (n - i) CHUNK) := by
  rw [next, if_neg (by omega), if_neg (by simp)]
  rfl

/-- A process that has written `i` bytes and is not in a section, and whether it is in an operation. -/
inductive At (src : Src) (n : Nat) : Nat → Bool → FsM Nat FileSig Int → Prop where
  | call {op : Bool} : At src n 0 op (filewrite sb f src n)
  | loop {op : Bool} {fuel i : Nat} (hi : i ≤ n) (hfuel : n - i ≤ fuel) : At src n i op (rest sb f ip src n fuel i)
  | begun {fuel i : Nat} (hi : i < n) (hfuel : n - i ≤ fuel + 1) : At src n i true (ilock sb ip >>= fun _ =>
      advance sb f ip (src.add i) (min (n - i) CHUNK) >>= leave ip (next sb f ip src n fuel i))
  | waits {fuel i : Nat} (hi : i < n) (hfuel : n - i ≤ fuel + 1) : At src n i true (acquiresleep ip >>= fun _ =>
      fetch sb ip >>= fun _ => advance sb f ip (src.add i) (min (n - i) CHUNK) >>= leave ip (next sb f ip src n fuel i))
  | ends {op : Bool} {fuel i : Nat} (hi : i < n) (hfuel : n - i ≤ fuel + 1) : At src n (i + min (n - i) CHUNK) op
      (Client.endOp >>= fun _ => next sb f ip src n fuel i (min (n - i) CHUNK : Nat))

end Programs

/-- The call ends a section. -/
def unlocks : ClientOp Nat (FsSig FileSig) → Bool
  | .ext (.iunlock _) => true
  | _ => false

end Fs

variable {own : Nat → Option Nat}

namespace FsState

open Fs

variable {P : Type} [DecidableEq P] {p : P} {sb : Superblock} {s t : FsState P (FileState P)}
  {ip : Fin NINODE} {f : Fin NFILE} {src : Src} {n i : Nat} {prog : FsM Nat FileSig Int}

/-- The file is open for writing, on the inode. -/
structure Shared (f : Fin NFILE) (ip : Fin NINODE) (s : FsState P (FileState P)) : Prop where
  type : (s.ext.file f).type = .inode
  writable : (s.ext.file f).writable = true
  inode : (s.ext.file f).ip = ip
  ref : 0 < s.ref ip

omit [DecidableEq P] in
theorem Shared.of_file (h : Shared f ip s) {off : Uint} (hfile : t.ext.file f = { s.ext.file f with off := off })
    (href : 0 < t.ref ip) : Shared f ip t where
  type := by rw [hfile]; exact h.type
  writable := by rw [hfile]; exact h.writable
  inode := by rw [hfile]; exact h.inode
  ref := href

/-- The sleep lock is taken. -/
def locked (s : FsState P (FileState P)) (p : P) (ip : Fin NINODE) : FsState P (FileState P) :=
  s.setCache (s.icache.set ip ((s.icache.slot ip).setLock (some p)))

/-- A call outside of sections. -/
theorem At.move (hs : Shared f ip s) {o : ClientOp Nat (FsSig FileSig)}
    {k : (Client Nat (FsSig FileSig)).Ret o → FsM Nat FileSig Int} {r : (Client Nat (FsSig FileSig)).Ret o}
    (h : At sb f ip src n i (s.op p) prog) (hprog : prog = .call o k) (hexec : files.exec p o s = .ok r t) :
    unlocks o = false ∧ ((∃ v, t = s.setOp p v ∧ At sb f ip src n i v (k r)) ∨
      (s.icache.slot ip).lock = none ∧ s.op p = true ∧ t = s.locked p ip ∧ i < n ∧ ∃ fuel, n - i ≤ fuel + 1 ∧
        k r = fetch sb ip >>= fun _ => advance sb f ip (src.add i) (min (n - i) CHUNK) >>=
          leave ip (next sb f ip src n fuel i)) := by
  have hself : s = s.setOp p (s.op p) := by
    unfold setOp
    rw [update_eq_self]
  generalize hop : s.op p = op at h
  cases h with
  | call =>
    cases hprog
    cases hexec
    refine ⟨rfl, Or.inl ⟨_, hself, ?_⟩⟩
    dsimp only [Prog.bind]
    rw [if_pos hs.writable, hs.type, hs.inode, Int.toNat_natCast]
    exact .loop (Nat.zero_le n) (Nat.le_refl _)
  | @loop _ fuel _ hi hfuel =>
    rcases Nat.lt_or_eq_of_le hi with hlt | rfl
    · obtain ⟨fuel, rfl⟩ : ∃ k, fuel = k + 1 := Nat.exists_eq_succ_of_ne_zero (by omega)
      rw [rest_of_lt _ _ _ _ hlt] at hprog
      cases hprog
      cases hexec
      exact ⟨rfl, Or.inl ⟨true, rfl, .begun hlt hfuel⟩⟩
    · rw [rest_self] at hprog
      cases hprog
  | begun hi hfuel =>
    rw [ilock] at hprog
    cases hprog
    cases hexec
    refine ⟨rfl, Or.inl ⟨_, hself, ?_⟩⟩
    have hnot : ¬s.ref ip < 1 := by
      have := hs.ref
      omega
    show At sb f ip src n i _ ((if s.ref ip < 1 then Fs.panic "ilock" else acquiresleep ip >>= fun _ => fetch sb ip) >>= _)
    rw [if_neg hnot, hop]
    exact .waits hi hfuel
  | @waits fuel _ hi hfuel =>
    cases hprog
    have hexec' : ((s.icache.acquiresleep p ip).mapState fun c => (c, s.ext)).mapState
        (fun c => ({ s with icache := c.1, ext := c.2 } : FsState P (FileState P))) = .ok r t := hexec
    unfold ICache.acquiresleep at hexec'
    cases hlock : (s.icache.slot ip).lock with
    | some q =>
      rw [hlock] at hexec'
      cases hexec'
    | none =>
      rw [hlock] at hexec'
      cases hexec'
      exact ⟨rfl, Or.inr ⟨rfl, rfl, rfl, hi, fuel, hfuel, rfl⟩⟩
  | @ends _ fuel j hi hfuel =>
    cases hprog
    cases hexec
    have hchunk : 0 < CHUNK := by decide
    refine ⟨rfl, Or.inl ⟨false, rfl, ?_⟩⟩
    show At sb f ip src n _ _ (next sb f ip src n fuel j (min (n - j) CHUNK : Nat))
    rw [next_ok]
    exact .loop (by omega) (by omega)

/-- A call that has returned. -/
theorem At.ret {op : Bool} {r : Int} (h : At sb f ip src n i op prog) (hprog : prog = .ret r) : r = n ∧ i = n := by
  cases h with
  | call => cases hprog
  | @loop _ fuel _ hi hfuel =>
    rcases Nat.lt_or_eq_of_le hi with hlt | rfl
    · obtain ⟨fuel, rfl⟩ : ∃ k, fuel = k + 1 := Nat.exists_eq_succ_of_ne_zero (by omega)
      rw [rest_of_lt _ _ _ _ hlt] at hprog
      cases hprog
    · rw [rest_self] at hprog
      cases hprog
      exact ⟨rfl, rfl⟩
  | begun hi hfuel | waits hi hfuel | ends hi hfuel => cases hprog

/-- A call that has not returned goes on, or waits for the lock of the inode. -/
theorem At.next (h : At sb f ip src n i (s.op p) prog) : (∃ r, prog = .ret r) ∨ ∃ o k, prog = .call o k ∧
    ((∃ r t, files.exec p o s = .ok r t) ∨ files.exec p o s = .block ∧ (s.icache.slot ip).lock ≠ none) := by
  generalize s.op p = op at h
  cases h with
  | call | ends => exact Or.inr ⟨_, _, rfl, Or.inl ⟨_, _, rfl⟩⟩
  | @loop _ fuel _ hi hfuel =>
    rcases Nat.lt_or_eq_of_le hi with hlt | rfl
    · obtain ⟨fuel, rfl⟩ : ∃ k, fuel = k + 1 := Nat.exists_eq_succ_of_ne_zero (by omega)
      rw [rest_of_lt _ _ _ _ hlt]
      exact Or.inr ⟨_, _, rfl, Or.inl ⟨_, _, rfl⟩⟩
    · exact Or.inl ⟨_, rest_self ..⟩
  | begun hi hfuel =>
    rw [ilock]
    exact Or.inr ⟨_, _, rfl, Or.inl ⟨_, _, rfl⟩⟩
  | waits hi hfuel =>
    refine Or.inr ⟨.ext (.acquiresleep ip), _, rfl, ?_⟩
    have hexec : files.exec p (.ext (.acquiresleep ip)) s = ((s.icache.acquiresleep p ip).mapState fun c => (c, s.ext)).mapState
      (fun c => ({ s with icache := c.1, ext := c.2 } : FsState P (FileState P))) := rfl
    unfold ICache.acquiresleep at hexec
    rw [hexec]
    cases (s.icache.slot ip).lock with
    | none => exact Or.inl ⟨_, _, rfl⟩
    | some q => exact Or.inr ⟨rfl, Option.some_ne_none q⟩

/-! ### A section -/

/-- Process `p` is in its section. -/
structure Held (f : Fin NFILE) (ip : Fin NINODE) (p : P) (s : FsState P (FileState P)) : Prop where
  shared : Shared f ip s
  lock : (s.icache.slot ip).lock = some p

theorem Held.quiet (h : Held f ip p s) {o : ClientOp Nat (FsSig FileSig)} {r : (Client Nat (FsSig FileSig)).Ret o}
    (ho : Quiet o) (hexec : files.exec p o s = .ok r t) : Held f ip p t := by
  obtain ⟨hext, hslot⟩ := exec_quiet ho hexec
  obtain ⟨hlock, href⟩ := hslot ip
  exact ⟨h.shared.of_file (by rw [hext]) (href ▸ h.shared.ref), hlock.trans h.lock⟩

theorem along_quiet {α : Type} {m : FsM Nat FileSig α} (hm : m.All Quiet) (h : Held f ip p s) :
    files.Along p (fun o => unlocks o = false) (Held f ip p) m s := by
  refine along_of_all hm (fun o ho => ⟨?_, fun s r t hs hexec => hs.quiet ho hexec⟩) h
  cases o with
  | ext e =>
    cases e with
    | iunlock ip => exact ho.elim
    | _ => rfl
  | _ => rfl

theorem along_advance (h : Held f ip p s) (n1 : Nat) :
    files.Along p (fun o => unlocks o = false) (Held f ip p) (advance sb f ip src n1) s := by
  refine ⟨h, rfl, fun ff t hexec => ?_⟩
  cases hexec
  refine (along_quiet (quiet_writei sb ip src _ n1) h).bind fun r t _ ht => ?_
  by_cases hr : r > 0
  · rw [if_pos hr]
    refine ⟨ht, rfl, fun _ u hexec => ?_⟩
    cases hexec
    exact ⟨h.shared.of_file (update_self ..) ht.shared.ref, ht.lock⟩
  · rw [if_neg hr]
    exact ht

theorem quiet_fetch (sb : Superblock) (ip : Fin NINODE) : (fetch sb ip : FsM Nat FileSig Unit).All Quiet := by
  refine .op_bind trivial fun n => ?_
  split
  · trivial
  · refine .op_bind trivial fun bp => .op_bind trivial fun d => .op_bind trivial fun _ => .op_bind trivial fun _ =>
      .op_bind trivial fun _ => .op_bind trivial fun n => ?_
    split
    · exact quiet_panic _
    · trivial

theorem holds_enter {n1 : Nat} (may : String → Prop) (h : Wf sb own s) (hs : Shared f ip s)
    (hop : s.op p = true) (htype : (s.dinode sb ip).type ≠ T_DIR) (hsrc : src.Ok) (hn : 0 < n1)
    (hoff : s.off f ≤ (s.dinode sb ip).size.val) (hmax : s.off f + n1 ≤ MAXFILE * BSIZE)
    (hmay : ¬Room sb s ip → may "balloc: out of blocks") :
    files.Along p (fun o => unlocks o = false) (Held f ip p) (fetch sb ip >>= fun _ => advance sb f ip src n1) (s.locked p ip) ∧
    (files.run p ((fetch sb ip >>= fun _ => advance sb f ip src n1) >>= leave ip pure) (s.locked p ip)).Holds may fun r t =>
      r = (n1 : Int) ∧ ∃ own', Chunked sb own' f ip src n1 s t := by
  have hlock := h.unlocked ip
  constructor
  · have hslot : (s.locked p ip).icache.slot ip = (s.icache.slot ip).setLock (some p) := update_self ..
    have hheld : Held f ip p (s.locked p ip) := by
      refine ⟨⟨hs.type, hs.writable, hs.inode, ?_⟩, by rw [hslot]; rfl⟩
      rw [FsState.ref, hslot]
      exact hs.ref
    exact (along_quiet (quiet_fetch sb ip) hheld).bind fun _ t _ ht => along_advance ht n1
  · have hholds := holds_chunk (p := p) (f := f) h hs.ref htype hsrc hn hoff hmax hmay
    have hself : s.setOp p true = s := by
      unfold setOp
      rw [← hop, update_eq_self]
    have hnot : ¬s.ref ip < 1 := by
      have := hs.ref
      omega
    rw [chunk_eq, run_beginOp, hself, ilock, bind_assoc, run_iref, if_neg hnot, bind_assoc, run_acquiresleep hlock] at hholds
    rw [bind_assoc]
    exact hholds

end FsState

/-! ### The chunks of all processes -/

section Weave

variable {P : Type} [DecidableEq P]

/-- A process appends the next chunk of what it has left. -/
def weaveStep (x : List UInt8 × (P → List UInt8)) (p : P) : List UInt8 × (P → List UInt8) :=
  (x.1 ++ (x.2 p).take CHUNK, update x.2 p ((x.2 p).drop CHUNK))

/-- What processes with these buffers append when they write their chunks in the given order, and what each of
them has left. -/
def weave (buf : P → List UInt8) (order : List P) : List UInt8 × (P → List UInt8) := order.foldl weaveStep ([], buf)

theorem weave_append (buf : P → List UInt8) (order : List P) (p : P) :
    weave buf (order ++ [p]) = weaveStep (weave buf order) p := by
  rw [weave, List.foldl_append]
  rfl

/-- The processes whose sections have ended, in order. -/
def sectionOrder (l : List (P × ClientOp Nat (FsSig FileSig))) : List P := (l.filter fun x => Fs.unlocks x.2).map Prod.fst

omit [DecidableEq P] in
theorem sectionOrder_append (l : List (P × ClientOp Nat (FsSig FileSig))) (p : P) (o : ClientOp Nat (FsSig FileSig)) :
    sectionOrder (l ++ [(p, o)]) = if Fs.unlocks o = true then sectionOrder l ++ [p] else sectionOrder l := by
  unfold sectionOrder
  rw [List.filter_append, List.map_append]
  split
  · rename_i ho
    simp [ho]
  · rename_i ho
    simp [ho]

end Weave

theorem Src.Has.chunk {src : Src} {buf b : List UInt8} {i : Nat} (hbuf : src.Has buf) (hi : i < buf.length)
    (hb : (src.add i).Has b) (hlen : b.length = min (buf.length - i) CHUNK) : b = (buf.drop i).take CHUNK := by
  refine List.ext_getElem (by rw [hlen, List.length_take, List.length_drop, Nat.min_comm]) fun j h₁ h₂ => ?_
  have hj := hb j h₁
  rw [src.byte_add, hbuf (i + j) (by omega)] at hj
  rw [List.getElem_take, List.getElem_drop, ← List.getD_eq_getElem _ 0 h₁, ← List.getD_eq_getElem _ 0]
  exact (Option.some.inj hj).symm

namespace FsState

open Fs

section Shared

variable {P : Type} [DecidableEq P] [Fintype P] {p q : P} {sb : Superblock} {s₀ s t : FsState P (FileState P)}
  {ip : Fin NINODE} {f : Fin NFILE} {src : P → Src} {buf : P → List UInt8} {order : List P} {idx : P → Nat}

/-- The state after sections in the given order, in which process `p` has written `idx p` bytes. -/
structure Woven (sb : Superblock) (f : Fin NFILE) (ip : Fin NINODE) (buf : P → List UInt8)
    (s₀ : FsState P (FileState P)) (order : List P) (idx : P → Nat) (s : FsState P (FileState P)) : Prop where
  wf : ∃ own, Wf sb own s
  shared : Shared f ip s
  type : (s.dinode sb ip).type ≠ T_DIR
  inum : s.inum ip = s₀.inum ip
  le : ∀ p, idx p ≤ (buf p).length
  left : (weave buf order).2 = fun p => (buf p).drop (idx p)
  length : (weave buf order).1.length = ∑ p, idx p
  off : s.off f = s₀.off f + ∑ p, idx p
  bytes : s.bytes sb ip = splice (s₀.bytes sb ip) (s₀.off f) (weave buf order).1
  room : Room sb s₀ ip → Room sb s ip

namespace Woven

variable (h : Woven sb f ip buf s₀ order idx s)
include h

theorem setOp (p : P) (v : Bool) : Woven sb f ip buf s₀ order idx (s.setOp p v) := by
  obtain ⟨own, hwf⟩ := h.wf
  exact ⟨⟨own, hwf.ok, hwf.disk, hwf.owner, hwf.unlocked, hwf.ref, hwf.used, hwf.clean, hwf.uniq⟩,
    ⟨h.shared.type, h.shared.writable, h.shared.inode, h.shared.ref⟩, h.type, h.inum, h.le, h.left, h.length, h.off,
    h.bytes, h.room⟩

variable (hoff : s₀.off f ≤ (s₀.dinode sb ip).size.val)
include hoff

theorem off_le_size : s.off f ≤ (s.dinode sb ip).size.val := by
  rw [← length_bytes, h.bytes, length_splice (by rw [length_bytes]; exact hoff), h.length, h.off]
  exact Nat.le_max_right ..

omit hoff in
theorem off_add_le (htotal : s₀.off f + ∑ p, (buf p).length ≤ MAXFILE * BSIZE) (q : P) :
    s.off f + min ((buf q).length - idx q) CHUNK ≤ MAXFILE * BSIZE := by
  have hsum := sum_update (fun n => n) idx q (idx q + min ((buf q).length - idx q) CHUNK)
  have hle : ∑ p, update idx q (idx q + min ((buf q).length - idx q) CHUNK) p ≤ ∑ p, (buf p).length := by
    refine Finset.sum_le_sum fun p _ => ?_
    by_cases hp : p = q
    · rw [hp, update_self]
      have := h.le q
      omega
    · rw [update_of_ne hp]
      exact h.le p
  rw [h.off]
  omega

/-- One more section. -/
theorem chunk (hsrc : (src q).Has (buf q)) (hq : idx q < (buf q).length)
    (hmax : s.off f + min ((buf q).length - idx q) CHUNK ≤ MAXFILE * BSIZE)
    (hc : Chunked sb own f ip ((src q).add (idx q)) (min ((buf q).length - idx q) CHUNK) s t) :
    Woven sb f ip buf s₀ (order ++ [q]) (update idx q (idx q + min ((buf q).length - idx q) CHUNK)) t := by
  have hsome : ∀ j, j < min ((buf q).length - idx q) CHUNK → (((src q).add (idx q)).byte j).isSome := by
    intro j hj
    rw [(src q).byte_add, hsrc _ (by omega)]
    rfl
  obtain ⟨b, hlen, hhas, hbytes⟩ := hc.bytes hsome
  have hb := hsrc.chunk hq hhas hlen
  have hoff' := hc.off hmax
  have hsum := sum_update (fun n => n) idx q (idx q + min ((buf q).length - idx q) CHUNK)
  have hfile : t.ext.file f = { s.ext.file f with
      off := (s.ext.file f).off + Uint.of (min ((buf q).length - idx q) CHUNK) } := by
    rw [hc.ext]
    exact update_self ..
  have hout : (weave buf (order ++ [q])).1 = (weave buf order).1 ++ b := by
    rw [weave_append, weaveStep, h.left, ← hb]
  refine ⟨⟨own, hc.wf⟩, h.shared.of_file hfile (hc.refs.ref ip ▸ h.shared.ref), ?_, ?_, fun p => ?_, ?_, ?_, ?_, ?_,
    fun hroom => hc.room (h.room hroom)⟩
  · rw [hc.type]
    exact h.type
  · rw [hc.refs.inum ip h.shared.ref]
    exact h.inum
  · by_cases hp : p = q
    · rw [hp, update_self]
      omega
    · rw [update_of_ne hp]
      exact h.le p
  · funext p
    rw [weave_append, weaveStep, h.left]
    show update (fun p => (buf p).drop (idx p)) q (((buf q).drop (idx q)).drop CHUNK) p = _
    by_cases hp : p = q
    · rw [hp, update_self, update_self, List.drop_drop]
      rcases Nat.le_total CHUNK ((buf q).length - idx q) with hle | hle
      · rw [Nat.min_eq_right hle]
      · rw [Nat.min_eq_left hle, List.drop_of_length_le (by omega), List.drop_of_length_le (by omega)]
    · rw [update_of_ne hp, update_of_ne hp]
  · rw [hout, List.length_append, h.length, hlen]
    omega
  · rw [hoff', h.off]
    omega
  · rw [hbytes, h.bytes, h.off, hout, ← h.length, splice_splice _ _ (by rw [length_bytes]; exact hoff)]

end Woven

/-! ### Every run -/

/-- The state and the programs, after the sections in the given order. -/
def Weaving (sb : Superblock) (f : Fin NFILE) (ip : Fin NINODE) (src : P → Src) (buf : P → List UInt8)
    (s₀ : FsState P (FileState P)) (order : List P)
    (c : Pool (Client Nat (FsSig FileSig)) P (FsState P (FileState P)) Int) : Prop :=
  ∃ idx, (Woven sb f ip buf s₀ order idx c.st ∧
      ∀ p, At sb f ip (src p) (buf p).length (idx p) (c.st.op p) (c.prog p)) ∨
    ∃ q m b fuel, Woven sb f ip buf s₀ order idx b ∧ idx q < (buf q).length ∧ (buf q).length - idx q ≤ fuel + 1 ∧
      c.prog q = m >>= leave ip (next sb f ip (src q) (buf q).length fuel (idx q)) ∧
      files.Along q (fun o => unlocks o = false) (Held f ip q) m c.st ∧
      ((files.run q (m >>= leave ip pure) c.st).Holds (fun _ => ¬Room sb s₀ ip) fun r t =>
        r = ((min ((buf q).length - idx q) CHUNK : Nat) : Int) ∧
        ∃ own, Chunked sb own f ip ((src q).add (idx q)) (min ((buf q).length - idx q) CHUNK) b t) ∧
      ∀ p, p ≠ q → At sb f ip (src p) (buf p).length (idx p) (c.st.op p) (c.prog p)

omit [Fintype P] in
theorem Chunked.setOp {src : Src} {n1 : Nat} (h : Chunked sb own f ip src n1 s t) (p : P)
    (v : Bool) : Chunked sb own f ip src n1 s (t.setOp p v) :=
  ⟨⟨h.wf.ok, h.wf.disk, h.wf.owner, h.wf.unlocked, h.wf.ref, h.wf.used, h.wf.clean, h.wf.uniq⟩, ⟨h.refs.ref, h.refs.inum⟩,
    h.ext, h.type, h.size, h.room, h.bytes⟩

omit [Fintype P] in
theorem At.setOp {progs : P → FsM Nat FileSig Int} {prog : FsM Nat FileSig Int} {v : Bool} {j : P}
    (hat : j ≠ p → At sb f ip (src j) (buf j).length (idx j) (s.op j) (progs j))
    (hp : At sb f ip (src p) (buf p).length (idx p) v prog) :
    At sb f ip (src j) (buf j).length (idx j) ((s.setOp p v).op j) (update progs p prog j) := by
  show At sb f ip (src j) (buf j).length (idx j) (update s.op p v j) (update progs p prog j)
  by_cases hj : j = p
  · rw [hj, update_self, update_self]
    exact hp
  · rw [update_of_ne hj, update_of_ne hj]
    exact hat hj

section Step

variable (hsrc : ∀ p, (src p).Has (buf p)) (hoff : s₀.off f ≤ (s₀.dinode sb ip).size.val)
  (htotal : s₀.off f + ∑ p, (buf p).length ≤ MAXFILE * BSIZE)
include hsrc hoff htotal

theorem Weaving.step {l : List (P × ClientOp Nat (FsSig FileSig))} {o : ClientOp Nat (FsSig FileSig)}
    {c c' : Pool (Client Nat (FsSig FileSig)) P (FsState P (FileState P)) Int}
    (h : Weaving sb f ip src buf s₀ (sectionOrder l) c) (hmove : files.Moves p o c c') :
    Weaving sb f ip src buf s₀ (sectionOrder (l ++ [(p, o)])) c' := by
  obtain ⟨hprog, hexec⟩ := hmove
  rename_i k r t
  rw [sectionOrder_append]
  obtain ⟨idx, ⟨hw, hat⟩ | ⟨q, m, b, fuel, hw, hq, hfuel, hprogq, halong, hholds, hat⟩⟩ := h
  · obtain ⟨hunlocks, ⟨v, rfl, hat'⟩ | ⟨hlock, hop, rfl, hlt, fuel, hfuel, hk⟩⟩ :=
      At.move hw.shared (hat p) hprog hexec
    · rw [if_neg (by rw [hunlocks]; exact Bool.false_ne_true)]
      exact ⟨idx, Or.inl ⟨hw.setOp p v, fun j => At.setOp (fun _ => hat j) hat'⟩⟩
    · -- the process enters its section
      rw [if_neg (by rw [hunlocks]; exact Bool.false_ne_true)]
      obtain ⟨own, hwf⟩ := hw.wf
      have hchunk : 0 < CHUNK := by decide
      obtain ⟨halong, hholds⟩ := holds_enter (p := p) (fun _ => ¬Room sb s₀ ip) hwf
        hw.shared hop hw.type ((src p).ok_add _) (show 0 < min ((buf p).length - idx p) CHUNK by omega)
        (hw.off_le_size hoff) (hw.off_add_le htotal p) fun hno hroom => hno (hw.room hroom)
      refine ⟨idx, Or.inr ⟨p, _, c.st, fuel, hw, hlt, hfuel, ?_, halong, hholds, fun j hj => ?_⟩⟩
      · show update c.prog p (k r) p = _
        rw [update_self, hk, bind_assoc]
      · show At sb f ip (src j) (buf j).length (idx j) (c.st.op j) (update c.prog p (k r) j)
        rw [update_of_ne hj]
        exact hat j
  · by_cases hpq : p = q
    · subst hpq
      have hheld := halong.start
      cases m with
      | ret a =>
        -- the section ends
        have hprog' : leave ip (next sb f ip (src p) (buf p).length fuel (idx p)) a = .call o k := by
          rw [← hprog, hprogq]
          rfl
        cases hprog'
        rw [exec_iunlock hheld.lock hheld.shared.ref] at hexec
        cases hexec
        have hrun : files.run p (Prog.ret a >>= leave ip pure) c.st =
            .ok a ((c.st.setCache (c.st.icache.releasesleep ip)).setOp p false) := run_iunlock hheld.lock hheld.shared.ref
        rw [hrun, holds_ok] at hholds
        obtain ⟨rfl, own, hc⟩ := hholds
        have hw' := (hw.chunk hoff (hsrc p) hq (hw.off_add_le htotal p) hc).setOp p (c.st.op p)
        have hback : ((c.st.setCache (c.st.icache.releasesleep ip)).setOp p false).setOp p (c.st.op p) =
            c.st.setCache (c.st.icache.releasesleep ip) := by
          unfold FsState.setOp
          simp only [update_idem]
          rw [show c.st.op p = (c.st.setCache (c.st.icache.releasesleep ip)).op p from rfl, update_eq_self]
        rw [hback] at hw'
        refine ⟨_, Or.inl ⟨hw', fun j => ?_⟩⟩
        show At sb f ip (src j) (buf j).length _ (c.st.op j) (update c.prog p _ j)
        by_cases hj : j = p
        · rw [hj, update_self, update_self]
          exact .ends hq hfuel
        · rw [update_of_ne hj, update_of_ne hj]
          exact hat j hj
      | call o' k' =>
        rw [hprogq] at hprog
        cases hprog
        rw [if_neg (by rw [halong.2.1]; exact Bool.false_ne_true)]
        refine ⟨idx, Or.inr ⟨p, k' r, b, fuel, hw, hq, hfuel, update_self .., halong.2.2 r t hexec, ?_, fun j hj => ?_⟩⟩
        · have hrun : files.run p (Prog.call o k' >>= leave ip pure) c.st = files.run p (k' r >>= leave ip pure) t :=
            run_call_ok hexec
          rw [hrun] at hholds
          exact hholds
        · show At sb f ip (src j) (buf j).length (idx j) (t.op j) (update c.prog p _ j)
          rw [update_of_ne hj, exec_op hj hexec]
          exact hat j hj
    · obtain ⟨hunlocks, ⟨v, rfl, hat'⟩ | ⟨hlock, -⟩⟩ := At.move halong.start.shared (hat p hpq) hprog hexec
      · rw [if_neg (by rw [hunlocks]; exact Bool.false_ne_true)]
        refine ⟨idx, Or.inr ⟨q, m, b, fuel, hw, hq, hfuel, ?_, along_setOp hpq (fun s v hs => ?_) v halong, ?_, fun j hj =>
          At.setOp (fun _ => hat j hj) hat'⟩⟩
        · show update c.prog p (k r) q = _
          rw [update_of_ne (Ne.symm hpq)]
          exact hprogq
        · exact ⟨⟨hs.shared.type, hs.shared.writable, hs.shared.inode, hs.shared.ref⟩, hs.lock⟩
        · show (files.run q (m >>= leave ip pure) (c.st.setOp p v)).Holds _ _
          rw [run_setOp hpq, holds_mapState]
          exact hholds.mono fun r t ⟨hr, own, hc⟩ => ⟨hr, own, hc.setOp p v⟩
      · rw [halong.start.lock] at hlock
        cases hlock

end Step

namespace Weaving

variable {c : Pool (Client Nat (FsSig FileSig)) P (FsState P (FileState P)) Int}

theorem start (h : Wf sb own s) (hf : Shared f ip s) (htype : (s.dinode sb ip).type ≠ T_DIR) :
    Weaving sb f ip src buf s [] ⟨s, fun p => filewrite sb f (src p) (buf p).length⟩ :=
  ⟨fun _ => 0, Or.inl ⟨⟨⟨own, h⟩, hf, htype, rfl, fun _ => Nat.zero_le _, rfl, by simp [weave], by simp,
    (splice_nil ..).symm, id⟩, fun _ => .call⟩⟩

variable (h : Weaving sb f ip src buf s₀ order c)
include h

theorem ret {r : Int} (hprog : c.prog p = .ret r) : r = (buf p).length := by
  obtain ⟨idx, ⟨-, hat⟩ | ⟨q, m, b, fuel, -, -, -, hprogq, -, -, hat⟩⟩ := h
  · exact (At.ret (hat p) hprog).1
  · by_cases hpq : p = q
    · rw [hpq, hprogq] at hprog
      cases m <;> cases hprog
    · exact (At.ret (hat p hpq) hprog).1

/-- A process has returned, its next call is made, or it waits for a process that goes on. -/
theorem next (hroom : Room sb s₀ ip) (p : P) : (∃ r, c.prog p = .ret r) ∨ ∃ o k, c.prog p = .call o k ∧
    ((∃ r t, files.exec p o c.st = .ok r t) ∨ files.exec p o c.st = .block ∧ ∃ q o c', files.Moves q o c c') := by
  obtain ⟨idx, ⟨hw, hat⟩ | ⟨q, m, b, fuel, -, -, -, hprogq, halong, hholds, hat⟩⟩ := h
  · obtain ⟨own, hwf⟩ := hw.wf
    exact (At.next (hat p)).imp_right fun ⟨o, k, hprog, hexec⟩ =>
      ⟨o, k, hprog, hexec.imp_right fun hblock => absurd (hwf.unlocked ip) hblock.2⟩
  · have hheld := halong.start
    obtain ⟨o', k', r', t', hprog', hexec'⟩ : ∃ o k r t, c.prog q = .call o k ∧ files.exec q o c.st = .ok r t := by
      cases m with
      | ret a => exact ⟨_, _, _, _, hprogq, exec_iunlock hheld.lock hheld.shared.ref⟩
      | call o k =>
        cases hexec : files.exec q o c.st with
        | ok r t => exact ⟨_, _, _, _, hprogq, hexec⟩
        | block =>
          have hrun : files.run q (Prog.call o k >>= leave ip pure) c.st = .block := by
            show files.run q (.call o _) c.st = _
            rw [Machine.run, hexec]
          rw [hrun] at hholds
          exact hholds.elim
        | panic msg =>
          have hrun : files.run q (Prog.call o k >>= leave ip pure) c.st = .panic msg := run_call_panic hexec
          rw [hrun] at hholds
          exact absurd hroom hholds
    by_cases hpq : p = q
    · rw [hpq]
      exact Or.inr ⟨o', k', hprog', Or.inl ⟨r', t', hexec'⟩⟩
    · exact (At.next (hat p hpq)).imp_right fun ⟨o, k, hprog, hexec⟩ =>
        ⟨o, k, hprog, hexec.imp_right fun hblock => ⟨hblock.1, q, o', _, .mk hprog' hexec'⟩⟩

theorem progress (hroom : Room sb s₀ ip) : (∀ p, ∃ r, c.prog p = .ret r) ∨ ∃ p o c', files.Moves p o c c' := by
  by_cases hall : ∀ p, ∃ r, c.prog p = .ret r
  · exact Or.inl hall
  · obtain ⟨p, hp⟩ := not_forall.1 hall
    obtain hret | ⟨o, k, hprog, ⟨r, t, hexec⟩ | ⟨-, hmoves⟩⟩ := h.next hroom p
    · exact absurd hret hp
    · exact Or.inr ⟨p, o, _, .mk hprog hexec⟩
    · exact Or.inr hmoves

theorem no_panic (hroom : Room sb s₀ ip) {o : ClientOp Nat (FsSig FileSig)}
    {k : (Client Nat (FsSig FileSig)).Ret o → FsM Nat FileSig Int} (hprog : c.prog p = .call o k) (msg : String) :
    files.exec p o c.st ≠ .panic msg := by
  obtain ⟨r, hret⟩ | ⟨o', k', hprog', hexec⟩ := h.next hroom p
  · rw [hprog] at hret
    cases hret
  · rw [hprog] at hprog'
    cases hprog'
    rcases hexec with ⟨r, t, hok⟩ | ⟨hblock, -⟩
    · rw [hok]
      exact nofun
    · rw [hblock]
      exact nofun

theorem final (hall : ∀ p, ∃ r, c.prog p = .ret r) : (∀ p, (weave buf order).2 p = []) ∧ c.st.inum ip = s₀.inum ip ∧
    c.st.bytes sb ip = splice (s₀.bytes sb ip) (s₀.off f) (weave buf order).1 ∧
    c.st.off f = s₀.off f + ∑ p, (buf p).length := by
  obtain ⟨idx, ⟨hw, hat⟩ | ⟨q, m, b, fuel, -, -, -, hprogq, -⟩⟩ := h
  · have hidx : ∀ p, idx p = (buf p).length := by
      intro p
      obtain ⟨r, hr⟩ := hall p
      exact (At.ret (hat p) hr).2
    refine ⟨fun p => ?_, hw.inum, hw.bytes, ?_⟩
    · rw [hw.left]
      show (buf p).drop (idx p) = []
      rw [hidx, List.drop_length]
    · rw [hw.off]
      simp only [hidx]
  · obtain ⟨r, hr⟩ := hall q
    rw [hprogq] at hr
    cases m <;> cases hr

end Weaving

/-- The processes share an open file and each of them writes the bytes at an address of its own. Whatever the
order of their calls is, they come to an end, none of them panics, every `filewrite` returns its length, and the
chunks are in the file in the order of the sections. -/
theorem shared_writes {own : Nat → Option Nat} {um : P → UserMem} {addr : P → Nat} (h : Wf sb own s)
    (hf : OpenInode sb s f) (hwritable : (s.ext.file f).writable = true)
    (hbuf : ∀ p, (Src.user (um p) (addr p)).Has (buf p)) (hoff : s.off f ≤ (s.dinode sb (s.ext.file f).ip).size.val)
    (htotal : s.off f + ∑ p, (buf p).length ≤ MAXFILE * BSIZE) :
    (WellFounded fun c' c : Pool (Client Nat (FsSig FileSig)) P (FsState P (FileState P)) Int =>
      ∃ p o, files.Moves p o c c') ∧
    ∀ l c, files.Runs ⟨s, fun p => filewrite sb f (.user (um p) (addr p)) (buf p).length⟩ l c →
      (∀ p r, c.prog p = .ret r → r = (buf p).length) ∧
      (Room sb s (s.ext.file f).ip → ((∀ p, ∃ r, c.prog p = .ret r) ∨ ∃ p o c', files.Moves p o c c') ∧
        ∀ p o k msg, c.prog p = .call o k → files.exec p o c.st ≠ .panic msg) ∧
      ((∀ p, ∃ r, c.prog p = .ret r) → (∀ p, (weave buf (sectionOrder l)).2 p = []) ∧
        c.st.inum (s.ext.file f).ip = s.inum (s.ext.file f).ip ∧
        c.st.bytes sb (s.ext.file f).ip =
          splice (s.bytes sb (s.ext.file f).ip) (s.off f) (weave buf (sectionOrder l)).1 ∧
        c.st.off f = s.off f + ∑ p, (buf p).length) := by
  refine ⟨moves_wellFounded files, fun l c hrun => ?_⟩
  have hweaving : Weaving sb f (s.ext.file f).ip (fun p => .user (um p) (addr p)) buf s (sectionOrder l) c := by
    induction hrun with
    | refl => exact Weaving.start h ⟨hf.type, hwritable, rfl, hf.ref⟩ (hf.dir hwritable)
    | step _ hmove ih => exact Weaving.step hbuf hoff htotal ih hmove
  exact ⟨fun p r => hweaving.ret, fun hroom =>
    ⟨hweaving.progress hroom, fun p o k msg hprog => hweaving.no_panic hroom hprog msg⟩, hweaving.final⟩

/-- Two processes write two and three bytes to an empty file. -/
def twoWriters : Pool (Client Nat (FsSig FileSig)) Bool (FsState Bool (FileState Bool)) Int :=
  ⟨emptyFile Bool, fun p => filewrite Superblock.tiny 0 (.user (fun _ => some fun _ => 7) 0)
    (List.replicate (bif p then 2 else 3) (7 : UInt8)).length⟩

theorem shared_writes_two : files.Runs twoWriters [] twoWriters ∧ ∀ l c, files.Runs twoWriters l c →
    (∀ p, ∃ r, c.prog p = .ret r) → c.st.off 0 = 5 := by
  refine ⟨.refl, fun l c hrun hall => ?_⟩
  have hbuf : ∀ p : Bool, (Src.user (fun _ => some fun _ => 7) 0).Has (List.replicate (bif p then 2 else 3) 7) := by
    intro p j hj
    rw [List.getD_eq_getElem _ _ hj, List.getElem_replicate]
    exact congrArg some (dif_pos (Nat.mod_lt _ (by decide)))
  exact (((shared_writes (wf_emptyFile Bool) (openInode_emptyFile Bool) rfl hbuf (Nat.zero_le _) (by decide)).2 l c hrun).2.2
    hall).2.2.2

end Shared

end FsState

end Xv6
