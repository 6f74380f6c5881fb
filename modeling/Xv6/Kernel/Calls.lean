import Xv6.Kernel.Sound

/-! The calls of `bio.c` as specifications that its code meets, and the functions of `log.c` proved over
them: `commit` as `end_op` runs it, and `recover_from_log` as it runs before the first process. -/

namespace Xv6

open Lib Logic Function

/-- The buffer is given back. -/
def Bufs.release (r : Bufs) (i : Fin NBUF) : Bufs := ⟨update r.held i none, .none⟩

variable {E : Sig} {R : Rules}

/-- What the calls that `log.c` makes need and leave. -/
def calls (R : Rules) (E : Sig) : Logic (Bio (Fin NBUF) E) Res where
  pre ρ
    | .bread dev b => (sections R E).pre ρ (.bget dev b)
    | .brelse i => (sections R E).pre ρ (.releasesleep i)
    | .bdata i => (sections R E).pre ρ (.data i)
    | .bstore i d => (sections R E).pre ρ (.store i d)
    | .bcopyin i off src n => (sections R E).pre ρ (.copyin i off src n)
    | .bwrite i => (sections R E).pre ρ (.bwrite i)
    | .bunpin i => (sections R E).pre ρ (.bunpin i)
    | .logCheck i => (sections R E).pre ρ (.logCheck i)
    | .logAppend i => (sections R E).pre ρ (.logAppend i)
    | .logEnter => (sections R E).pre ρ .logEnter
    | .logLeave => (sections R E).pre ρ .logLeave
    | .logDone => (sections R E).pre ρ .logDone
    | .getHead => (sections R E).pre ρ .getHead
    | .setHead blocks => (sections R E).pre ρ (.setHead blocks)
    | .ext e => (sections R E).pre ρ (.ext e)
  post ρ
    | .bread _ b, i, ρ' => ∃ d, ρ.bufs.held i = none ∧ (R.tracked → R.keeps b d) ∧
        ρ' = { ρ with bufs := ρ.bufs.hold i ⟨b, d, .safe⟩ }
    | .brelse i, _, ρ' => ρ' = { ρ with bufs := ρ.bufs.release i }
    | .bdata i, r, ρ' => (sections R E).post ρ (.data i) r ρ'
    | .bstore i d, r, ρ' => (sections R E).post ρ (.store i d) r ρ'
    | .bcopyin i off src n, r, ρ' => (sections R E).post ρ (.copyin i off src n) r ρ'
    | .bwrite i, r, ρ' => (sections R E).post ρ (.bwrite i) r ρ'
    | .bunpin i, r, ρ' => (sections R E).post ρ (.bunpin i) r ρ'
    | .logCheck i, r, ρ' => (sections R E).post ρ (.logCheck i) r ρ'
    | .logAppend i, r, ρ' => (sections R E).post ρ (.logAppend i) r ρ'
    | .logEnter, r, ρ' => (sections R E).post ρ .logEnter r ρ'
    | .logLeave, r, ρ' => (sections R E).post ρ .logLeave r ρ'
    | .logDone, r, ρ' => (sections R E).post ρ .logDone r ρ'
    | .getHead, r, ρ' => (sections R E).post ρ .getHead r ρ'
    | .setHead blocks, r, ρ' => (sections R E).post ρ (.setHead blocks) r ρ'
    | .ext e, r, ρ' => (sections R E).post ρ (.ext e) r ρ'

theorem bioC_bread {ρ : Res} {dev b : Nat} (hpre : (calls R E).pre ρ (.bread dev b)) :
    (sections R E).wp (bioC (.bread dev b)) ((calls R E).post ρ (.bread dev b)) ρ := by
  refine ⟨hpre, ?_⟩
  rintro i _ rfl
  refine ⟨⟨b, rfl⟩, ?_⟩
  rintro ⟨⟩ _ ⟨b', hb', rfl⟩
  cases hb'
  refine ⟨⟨b, rfl⟩, ?_⟩
  rintro ⟨⟩ _ ⟨b', d, hb', hnone, hkeeps, rfl⟩
  cases hb'
  exact ⟨d, hnone, hkeeps, rfl⟩

theorem bioC_brelse {ρ : Res} {i : Fin NBUF} (hpre : (calls R E).pre ρ (.brelse i)) :
    (sections R E).wp (bioC (.brelse i)) ((calls R E).post ρ (.brelse i)) ρ := by
  refine ⟨hpre, ?_⟩
  rintro ⟨⟩ _ ⟨x, hx, rfl⟩
  refine ⟨⟨x.blockno, rfl⟩, ?_⟩
  rintro ⟨⟩ _ rfl
  exact rfl

/-- `bio.c` meets the specification of its calls. -/
theorem bioC_spec (ρ : Res) (o : BioOp (Fin NBUF) E) (hpre : (calls R E).pre ρ o) :
    (sections R E).wp (bioC o) ((calls R E).post ρ o) ρ := by
  cases o with
  | bread dev b => exact bioC_bread hpre
  | brelse i => exact bioC_brelse hpre
  | _ => exact ⟨hpre, fun _ _ hpost => hpost⟩

/-! ### `log.c` -/

namespace Bufs

variable {r : Bufs} {i j : Fin NBUF} {x y : Held}

@[simp] theorem held_hold_self : (r.hold i x).held i = some x := update_self ..
@[simp] theorem held_set_self : (r.set i x).held i = some x := update_self ..
@[simp] theorem held_release_self : (r.release i).held i = none := update_self ..

@[simp] theorem held_hold_of_ne (h : j ≠ i) : (r.hold i x).held j = r.held j :=
  update_of_ne h ..

@[simp] theorem held_set_of_ne (h : j ≠ i) : (r.set i x).held j = r.held j :=
  update_of_ne h ..

@[simp] theorem held_release_of_ne (h : j ≠ i) : (r.release i).held j = r.held j :=
  update_of_ne h ..

theorem ext_held {r s : Bufs} (hheld : ∀ k, r.held k = s.held k) (ht : r.transit = s.transit) : r = s := by
  obtain ⟨held, transit⟩ := r
  obtain ⟨held', transit'⟩ := s
  obtain rfl : held = held' := funext hheld
  exact congrArg _ ht

theorem eq_of_given_back {r s : Bufs} (hi : r.held i = none) (hj : r.held j = none)
    (hsi : s.held i = none) (hsj : s.held j = none)
    (hother : ∀ k, k ≠ i → k ≠ j → s.held k = r.held k) (ht : s.transit = r.transit) : s = r := by
  refine ext_held (fun k => ?_) ht
  by_cases hki : k = i
  · rw [hki, hsi, hi]
  · by_cases hkj : k = j
    · rw [hkj, hsj, hj]
    · exact hother k hki hkj

theorem ne_of_held (hi : (r.hold i x).held j = none) : j ≠ i := by
  rintro rfl
  rw [held_hold_self] at hi
  cases hi

end Bufs

namespace Calls

/-! The rules for the calls, in front of the rest of a program. -/

variable {α : Type} {ρ : Res} {Q : α → Res → Prop} {i : Fin NBUF} {x : Held}

theorem bread {b : Nat} {f : Fin NBUF → Prog (Bio (Fin NBUF) E) α} (ht : ρ.bufs.transit = .none)
    (hget : R.inOp → ρ.MayGet b) (h : ∀ i d, ρ.bufs.held i = none → (R.tracked → R.keeps b d) →
      (calls R E).wp (f i) Q { ρ with bufs := ρ.bufs.hold i ⟨b, d, .safe⟩ }) :
    (calls R E).wp (Bio.bread ROOTDEV b >>= f) Q ρ := by
  refine ⟨⟨rfl, ht, hget⟩, ?_⟩
  rintro i _ ⟨d, hnone, hkeeps, rfl⟩
  exact h i d hnone hkeeps

theorem bdata {f : Block → Prog (Bio (Fin NBUF) E) α} (hx : ρ.bufs.held i = some x)
    (h : (calls R E).wp (f x.data) Q ρ) : (calls R E).wp (Bio.bdata i >>= f) Q ρ := by
  refine ⟨show (ρ.bufs.held i).isSome by rw [hx]; rfl, ?_⟩
  rintro _ _ ⟨rfl, y, hy, rfl⟩
  cases hx.symm.trans hy
  exact h

section

variable (ht : ρ.bufs.transit = .none) (hx : ρ.bufs.held i = some x)
include ht hx

theorem bstore {d : Block} {f : Unit → Prog (Bio (Fin NBUF) E) α} (hkeeps : R.keeps x.blockno d)
    (h : (calls R E).wp (f ()) Q { ρ with bufs := ρ.bufs.set i ⟨x.blockno, d, .dirty⟩ }) :
    (calls R E).wp (Bio.bstore i d >>= f) Q ρ := by
  refine ⟨⟨ht, x, hx, hkeeps⟩, ?_⟩
  rintro ⟨⟩ _ ⟨y, hy, rfl⟩
  cases hx.symm.trans hy
  exact h

theorem bwrite {f : Unit → Prog (Bio (Fin NBUF) E) α}
    (h : (calls R E).wp (f ()) Q { ρ with bufs := ρ.bufs.set i ⟨x.blockno, x.data, .synced⟩ }) :
    (calls R E).wp (Bio.bwrite i >>= f) Q ρ := by
  refine ⟨⟨ht, by rw [hx]; rfl⟩, ?_⟩
  rintro ⟨⟩ _ ⟨y, hy, rfl⟩
  cases hx.symm.trans hy
  exact h

theorem brelse {f : Unit → Prog (Bio (Fin NBUF) E) α} (hclean : R.tracked → x.status ≠ .dirty)
    (h : (calls R E).wp (f ()) Q { ρ with bufs := ρ.bufs.release i }) :
    (calls R E).wp (Bio.brelse i >>= f) Q ρ := by
  refine ⟨⟨ht, x, hx, hclean⟩, ?_⟩
  rintro ⟨⟩ _ rfl
  exact h

end

theorem brelse_last {r s : Bufs} {l : LogPart} (hi : r.held i = none) (ht : r.transit = .none)
    (hst : s.transit = .none) (hx : s.held i = some x) (hclean : R.tracked → x.status ≠ .dirty)
    (hother : ∀ k, k ≠ i → s.held k = r.held k) :
    (calls R E).wp (Bio.brelse i) (fun _ ρ' => ρ' = ⟨r, l⟩) ⟨s, l⟩ := by
  rw [← bind_pure (Bio.brelse i)]
  refine brelse hst hx hclean ?_
  show (⟨s.release i, l⟩ : Res) = ⟨r, l⟩
  rw [Bufs.eq_of_given_back hi hi Bufs.held_release_self Bufs.held_release_self
    (fun k hk _ => by rw [Bufs.held_release_of_ne hk, hother k hk]) ht.symm]

theorem bunpin {lh : List Nat} {k : Nat} {f : Unit → Prog (Bio (Fin NBUF) E) α}
    (hx : ρ.bufs.held i = some x) (hsync : x.status = .synced)
    (hlog : ρ.log = ⟨none, none, .commit lh k⟩) (hk : lh[k]? = some x.blockno)
    (h : (calls R E).wp (f ()) Q { ρ with log := ⟨none, none, .commit lh (k + 1)⟩ }) :
    (calls R E).wp (Bio.bunpin i >>= f) Q ρ := by
  refine ⟨⟨x, lh, k, hx, hsync, hlog, hk⟩, ?_⟩
  rintro ⟨⟩ _ ⟨lh', k', hlog', rfl⟩
  cases hlog.symm.trans hlog'
  exact h

theorem getHead {lh : List Nat} {k : Nat} {f : List Nat → Prog (Bio (Fin NBUF) E) α}
    (hlog : ρ.log = ⟨none, none, .commit lh k⟩) (h : (calls R E).wp (f lh) Q ρ) :
    (calls R E).wp (Bio.getHead >>= f) Q ρ := by
  refine ⟨show ρ.log.role ≠ .client by rw [hlog]; nofun, ?_⟩
  rintro blocks _ ⟨rfl, hblocks, -⟩
  rw [hblocks lh k (by rw [hlog])]
  exact h

theorem setHead {lh : List Nat} {f : Unit → Prog (Bio (Fin NBUF) E) α}
    (hlog : ρ.log = ⟨none, none, .commit lh lh.length⟩)
    (h : (calls R E).wp (f ()) Q { ρ with log := ⟨none, none, .commit [] 0⟩ }) :
    (calls R E).wp (Bio.setHead [] >>= f) Q ρ := by
  refine ⟨⟨rfl, Or.inl ⟨lh, hlog⟩⟩, ?_⟩
  rintro ⟨⟩ _ rfl
  rw [hlog]
  exact h

end Calls

section Commit

variable {start : Nat} {lh : List Nat}

theorem wp_writeLogFrom (hK : ∀ b d, R.keeps b d) {r : Bufs} (ht : r.transit = .none)
    (hempty : R.inOp → ∀ i, r.count i = 0) (fuel : Nat) :
    ∀ tail, (calls R E).wp (writeLogFrom start fuel tail)
      (fun _ ρ' => ρ' = ⟨r, none, none, .commit lh 0⟩) ⟨r, none, none, .commit lh 0⟩ := by
  induction fuel with
  | zero => exact fun _ => rfl
  | succ fuel ih =>
    intro tail
    refine Calls.getHead rfl ?_
    by_cases htail : tail < lh.length
    · rw [if_pos htail]
      refine Calls.bread ht (fun hR => Or.inl (hempty hR)) fun i d hi _ => ?_
      refine Calls.getHead rfl (Calls.bread rfl (fun _ => Or.inr ?_) fun j d' hj _ => ?_)
      · simp [List.getD, htail]
      have hji := Bufs.ne_of_held hj
      rw [Bufs.held_hold_of_ne hji] at hj
      refine Calls.bdata Bufs.held_hold_self ?_
      refine Calls.bstore rfl (x := ⟨start + tail + 1, d, .safe⟩) (by simp [Ne.symm hji]) (hK _ _) ?_
      refine Calls.bwrite rfl Bufs.held_set_self ?_
      refine Calls.brelse rfl (x := ⟨lh.getD tail 0, d', .safe⟩) (by simp [hji]) (fun _ => nofun) ?_
      refine Calls.brelse rfl (x := ⟨start + tail + 1, d', .synced⟩) (by simp [Ne.symm hji]) (fun _ => nofun) ?_
      rw [Bufs.eq_of_given_back hi hj Bufs.held_release_self (by simp [hji])
        (fun k hki hkj => by simp [hki, hkj]) ht.symm]
      exact ih (tail + 1)
    · rw [if_neg htail]
      rfl

theorem wp_installTransFrom (hK : ∀ b d, R.keeps b d) {r : Bufs} (ht : r.transit = .none)
    (hempty : R.inOp → ∀ i, r.count i = 0) {fuel : Nat} :
    ∀ {tail}, tail ≤ lh.length → lh.length < tail + fuel → (calls R E).wp (installTransFrom start fuel tail)
        (fun _ ρ' => ρ' = ⟨r, none, none, .commit lh lh.length⟩) ⟨r, none, none, .commit lh tail⟩ := by
  induction fuel with
  | zero => exact fun hle hlt => absurd hlt (by omega)
  | succ fuel ih =>
    intro tail hle hlt
    refine Calls.getHead rfl ?_
    by_cases htail : tail < lh.length
    · rw [if_pos htail]
      have hget : lh[tail]? = some (lh.getD tail 0) := by simp [List.getD, htail]
      refine Calls.bread ht (fun hR => Or.inl (hempty hR)) fun i d hi _ => ?_
      refine Calls.getHead rfl (Calls.bread rfl (fun _ => Or.inr ?_) fun j d' hj _ => ?_)
      · rw [List.drop_eq_getElem_cons htail, List.getD_eq_getElem?_getD, List.getElem?_eq_getElem htail]
        exact List.mem_cons_self
      have hji := Bufs.ne_of_held hj
      rw [Bufs.held_hold_of_ne hji] at hj
      refine Calls.bdata (x := ⟨start + tail + 1, d, .safe⟩) (by simp [Ne.symm hji]) ?_
      refine Calls.bstore rfl Bufs.held_hold_self (hK _ _) (Calls.bwrite rfl Bufs.held_set_self ?_)
      refine Calls.bunpin Bufs.held_set_self rfl rfl hget ?_
      refine Calls.brelse rfl (x := ⟨start + tail + 1, d, .safe⟩) (by simp [Ne.symm hji]) (fun _ => nofun) ?_
      refine Calls.brelse rfl (x := ⟨lh.getD tail 0, d, .synced⟩) (by simp [hji]) (fun _ => nofun) ?_
      rw [Bufs.eq_of_given_back hi hj (by simp [Ne.symm hji]) Bufs.held_release_self
        (fun k hki hkj => by simp [hki, hkj]) ht.symm]
      exact ih htail (by omega)
    · rw [if_neg htail]
      obtain rfl : tail = lh.length := by omega
      rfl

theorem wp_writeHead {r : Bufs} {k : Nat} (hK : ∀ d, R.keeps start (putHead d lh))
    (ht : r.transit = .none) (hempty : R.inOp → ∀ i, r.count i = 0) :
    (calls R E).wp (writeHead start) (fun _ ρ' => ρ' = ⟨r, none, none, .commit lh k⟩)
      ⟨r, none, none, .commit lh k⟩ := by
  refine Calls.bread ht (fun hR => Or.inl (hempty hR)) fun i d hi _ => ?_
  refine Calls.bdata Bufs.held_hold_self (Calls.getHead rfl ?_)
  refine Calls.bstore rfl Bufs.held_hold_self (hK d) (Calls.bwrite rfl Bufs.held_set_self ?_)
  exact Calls.brelse_last hi ht rfl Bufs.held_set_self (fun _ => nofun) fun k hk => by simp [hk]

theorem wp_commit (hK : ∀ b d, R.keeps b d) {r : Bufs} (ht : r.transit = .none)
    (hempty : R.inOp → ∀ i, r.count i = 0) (hlen : lh.length ≤ LOGSIZE) :
    (calls R E).wp (commit start) (fun _ ρ' => ρ' = ⟨r, none, none, .commit [] 0⟩) ⟨r, none, none, .commit lh 0⟩ := by
  refine Calls.getHead rfl ?_
  by_cases hpos : 0 < lh.length
  · rw [if_pos hpos]
    refine wp_seq (wp_writeLogFrom hK ht hempty _ 0) ?_
    rintro ⟨⟩ _ rfl
    refine wp_seq (wp_writeHead (fun _ => hK _ _) ht hempty) ?_
    rintro ⟨⟩ _ rfl
    refine wp_seq (wp_installTransFrom hK ht hempty (Nat.zero_le _) (by omega)) ?_
    rintro ⟨⟩ _ rfl
    exact Calls.setHead rfl (wp_writeHead (fun _ => hK _ _) ht hempty)
  · rw [if_neg hpos, List.eq_nil_of_length_eq_zero (Nat.eq_zero_of_not_pos hpos)]
    rfl

end Commit

section Boot

variable {α : Type} {start : Nat} {r : Bufs} {Q : α → Res → Prop}

theorem Calls.getHead_boot {f : List Nat → Prog (Bio (Fin NBUF) E) α}
    (h : (calls R E).wp (f []) Q ⟨r, none, none, .boot⟩) :
    (calls R E).wp (Bio.getHead >>= f) Q ⟨r, none, none, .boot⟩ := by
  refine ⟨show Role.boot ≠ .client by nofun, ?_⟩
  rintro blocks _ ⟨rfl, -, hblocks⟩
  rw [hblocks rfl]
  exact h

theorem Calls.setHead_boot {f : Unit → Prog (Bio (Fin NBUF) E) α} (h : (calls R E).wp (f ()) Q ⟨r, none, none, .boot⟩) :
    (calls R E).wp (Bio.setHead [] >>= f) Q ⟨r, none, none, .boot⟩ := by
  refine ⟨⟨rfl, Or.inr rfl⟩, ?_⟩
  rintro ⟨⟩ _ rfl
  exact h

theorem wp_readHead (hR : R.tracked) (hK : ∀ d, R.keeps start d → headN d ≤ 0) (ht : r.transit = .none) :
    (calls R E).wp (readHead start) (fun _ ρ' => ρ' = ⟨r, none, none, .boot⟩) ⟨r, none, none, .boot⟩ := by
  refine Calls.bread ht (fun _ => trivial) fun i d hi hkeeps => ?_
  refine Calls.bdata Bufs.held_hold_self ?_
  rw [headBlocks_of_headN_nonpos (hK d (hkeeps hR))]
  refine Calls.setHead_boot ?_
  exact Calls.brelse_last hi ht rfl Bufs.held_hold_self (fun _ => nofun) fun k hk => by simp [hk]

theorem wp_recoverFromLog (hR : R.tracked) (hK : ∀ d, R.keeps start d ↔ headN d ≤ 0) (ht : r.transit = .none) :
    (calls R E).wp (recoverFromLog start) (fun _ ρ' => ρ' = ⟨r, none, none, .boot⟩) ⟨r, none, none, .boot⟩ := by
  refine wp_seq (wp_readHead hR (fun d => (hK d).1) ht) ?_
  rintro ⟨⟩ _ rfl
  -- there is nothing to install
  refine Calls.getHead_boot (Calls.setHead_boot ?_)
  refine Calls.bread ht (fun _ => trivial) fun i d hi _ => ?_
  refine Calls.bdata Bufs.held_hold_self (Calls.getHead_boot ?_)
  have hzero : headN (putHead d []) ≤ 0 := (headN_putHead d (Nat.zero_le _)).le
  refine Calls.bstore rfl Bufs.held_hold_self ((hK _).2 hzero) ?_
  refine Calls.bwrite rfl Bufs.held_set_self ?_
  exact Calls.brelse_last hi ht rfl Bufs.held_set_self (fun _ => nofun) fun k hk => by simp [hk]

end Boot

end Xv6
