import Mathlib.Data.List.Perm.Subperm
import Xv6.Virtio.Driver

/-! What holds at the disk in every state. A request is live until its call of `virtio_disk_rw` has freed its
chain. The chains of live requests and the one that a process has just allocated are disjoint, so that two
requests at most are live: a ring of `NUM` entries is never overwritten, and comparing indices modulo
`NUM` is comparing them. -/

namespace Xv6

open Lib Function List

namespace Virtio

variable {P B : Type} [DecidableEq B]

theorem getElem?_concat_eq_some {α : Type} {l : List α} {x y : α} {n : Nat} :
    (l ++ [x])[n]? = some y ↔ l[n]? = some y ∨ n = l.length ∧ y = x := by
  rcases Nat.lt_trichotomy n l.length with hlt | rfl | hgt
  · rw [List.getElem?_append_left hlt, or_iff_left fun h => absurd h.1 hlt.ne]
  · simp [eq_comm]
  · rw [List.getElem?_eq_none (by rw [length_append, length_singleton]; omega), List.getElem?_eq_none hgt.le]
    exact iff_of_false nofun fun h => h.elim nofun fun h => absurd h.1 hgt.ne'

namespace Disk

/-- Request `n` is `r`, and its chain has not been freed. -/
def Live (s : Disk P B) (n : Nat) (r : Request B) : Prop := s.reqs[n]? = some r ∧ n ∉ s.returned

/-- The descriptors of a chain as the device follows them. -/
structure Linked (s : Disk P B) (c : Chain) : Prop where
  head : (s.desc c.head).flags &&& VRING_DESC_F_NEXT ≠ 0 ∧ (s.desc c.head).next = c.mid
  mid : (s.desc c.mid).flags &&& VRING_DESC_F_NEXT ≠ 0 ∧ (s.desc c.mid).next = c.last
  last : (s.desc c.last).flags &&& VRING_DESC_F_NEXT = 0 ∧ (s.desc c.last).addr = .status c.head

/-- The descriptors, where `h` is the chain that the holder of the lock has allocated and not yet submitted. -/
structure Chains (s : Disk P B) (h : Option Chain) : Prop where
  lt : ∀ n r, s.Live n r → ∀ i ∈ r.chain.toList, i < NUM
  nodup : ∀ n r, s.Live n r → r.chain.toList.Nodup
  disjoint : ∀ n m r r' i, s.Live n r → s.Live m r' → i ∈ r.chain.toList → i ∈ r'.chain.toList → n = m
  handLt : ∀ c, h = some c → ∀ i ∈ c.toList, i < NUM
  handNodup : ∀ c, h = some c → c.toList.Nodup
  handDisjoint : ∀ c n r i, h = some c → s.Live n r → i ∈ c.toList → i ∉ r.chain.toList
  used : ∀ i, i < NUM →
    (s.free i = false ↔ (∃ n r, s.Live n r ∧ i ∈ r.chain.toList) ∨ ∃ c, h = some c ∧ i ∈ c.toList)
  linked : ∀ n r, s.Live n r → s.Linked r.chain
  info : ∀ n r, s.Live n r → s.info r.chain.head = some r.buf ∧ s.status r.chain.head = 0
  current : ∀ n r, s.Live n r → s.current r.buf = n ∧ (s.busy r.buf = true ↔ n ∉ s.cleared)

/-- The rings. Requests are numbered in the order in which they were submitted, which is the order in which the
device takes them. -/
structure Rings (s : Disk P B) : Prop where
  availIdx : s.availIdx = BitVec.ofNat 16 s.reqs.length
  lastAvail : s.lastAvail = BitVec.ofNat 16 s.taken
  taken_le : s.taken ≤ s.reqs.length
  avail : ∀ n r, s.taken ≤ n → s.reqs[n]? = some r → s.avail (n % NUM) = r.chain.head
  accepted : ∀ n i, (n, i) ∈ s.accepted → n < s.taken ∧ n ∉ s.finished ∧
    ∃ r, s.reqs[n]? = some r ∧ r.chain.head = i
  acceptedNodup : (s.accepted.map Prod.fst).Nodup
  finished : ∀ n ∈ s.finished, n < s.taken
  finishedNodup : s.finished.Nodup
  usedId : s.usedId = BitVec.ofNat 16 s.finished.length
  cleared : s.cleared <+: s.finished
  usedIdx : s.usedIdx = BitVec.ofNat 16 (s.cleared.length % NUM)
  elems : ∀ k n r, s.cleared.length ≤ k → s.finished[k]? = some n → s.reqs[n]? = some r →
    s.elems (k % NUM) = r.chain.head
  returned : ∀ n ∈ s.returned, n ∈ s.cleared

section Count

variable {s : Disk P B} {h : Option Chain}

omit [DecidableEq B]

theorem Chains.not_three (hc : s.Chains h) {n m k : Nat} {r r' r'' : Request B} (hn : s.Live n r) (hm : s.Live m r')
    (hk : s.Live k r'') (hnm : n ≠ m) (hnk : n ≠ k) (hmk : m ≠ k) : False := by
  have hdisj : ∀ {a b : Nat} {q q' : Request B}, s.Live a q → s.Live b q' → a ≠ b →
      List.Disjoint q.chain.toList q'.chain.toList :=
    fun ha hb hab i hi hi' => hab (hc.disjoint _ _ _ _ i ha hb hi hi')
  have hnodup : (r.chain.toList ++ (r'.chain.toList ++ r''.chain.toList)).Nodup := by
    refine nodup_append'.2 ⟨hc.nodup n r hn, nodup_append'.2 ⟨hc.nodup m r' hm, hc.nodup k r'' hk, hdisj hm hk hmk⟩, ?_⟩
    rw [disjoint_append_right]
    exact ⟨hdisj hn hm hnm, hdisj hn hk hnk⟩
  have hsub : r.chain.toList ++ (r'.chain.toList ++ r''.chain.toList) ⊆ List.range NUM := by
    intro i hi
    rw [mem_range]
    rcases mem_append.1 hi with hi | hi
    · exact hc.lt n r hn i hi
    · rcases mem_append.1 hi with hi | hi
      · exact hc.lt m r' hm i hi
      · exact hc.lt k r'' hk i hi
  have hlen := (subperm_of_subset hnodup hsub).length_le
  have h₁ : (r.chain.toList ++ (r'.chain.toList ++ r''.chain.toList)).length = 9 := rfl
  rw [h₁, length_range] at hlen
  exact absurd hlen (by decide)

theorem Rings.live_of_not_cleared (hr : s.Rings) {n : Nat} (hlt : n < s.reqs.length) (hn : n ∉ s.cleared) :
    ∃ r, s.Live n r :=
  ⟨s.reqs[n], List.getElem?_eq_getElem hlt, fun hret => hn (hr.returned n hret)⟩

theorem available_le (hc : s.Chains h) (hr : s.Rings) : s.reqs.length ≤ s.taken + 2 := by
  by_contra hgt
  have hlive : ∀ n, s.taken ≤ n → n < s.reqs.length → ∃ r, s.Live n r := fun n hn hlt =>
    hr.live_of_not_cleared hlt fun hclr => by
      have := hr.finished n (hr.cleared.subset hclr)
      omega
  obtain ⟨r, h₁⟩ := hlive s.taken (le_refl _) (by omega)
  obtain ⟨r', h₂⟩ := hlive (s.taken + 1) (by omega) (by omega)
  obtain ⟨r'', h₃⟩ := hlive (s.taken + 2) (by omega) (by omega)
  exact hc.not_three h₁ h₂ h₃ (by omega) (by omega) (by omega)

theorem Rings.cleared_length_le (hr : s.Rings) : s.cleared.length ≤ s.finished.length := hr.cleared.length_le

theorem Rings.not_cleared (hr : s.Rings) {k n : Nat} (hk : s.cleared.length ≤ k)
    (hn : s.finished[k]? = some n) : n ∉ s.cleared := by
  intro hclr
  obtain ⟨j, hj, hjn⟩ := mem_iff_getElem.1 hclr
  have hj' : s.finished[j]? = some n := by
    rw [prefix_iff_getElem?.1 hr.cleared j hj, hjn]
  have hlt : j < s.finished.length := lt_of_lt_of_le hj hr.cleared_length_le
  have hjk : j = k := (List.getElem?_inj hlt hr.finishedNodup).1 (hj'.trans hn.symm)
  omega

/-- Entry `k` of the used ring, which the handler has not looked at, is for a live request. -/
theorem live_of_unprocessed (hr : s.Rings) {k n : Nat} (hk : s.cleared.length ≤ k)
    (hn : s.finished[k]? = some n) : ∃ r, s.Live n r :=
  hr.live_of_not_cleared (lt_of_lt_of_le (hr.finished n (mem_of_getElem? hn)) hr.taken_le) (hr.not_cleared hk hn)

theorem unprocessed_le (hc : s.Chains h) (hr : s.Rings) : s.finished.length ≤ s.cleared.length + 2 := by
  by_contra hgt
  have hlive : ∀ k, s.cleared.length ≤ k → ∀ hk : k < s.finished.length, ∃ r, s.Live s.finished[k] r :=
    fun k hle hk => live_of_unprocessed hr hle (List.getElem?_eq_getElem hk)
  have hne : ∀ {j k : Nat} (hj : j < s.finished.length) (hk : k < s.finished.length), j ≠ k →
      s.finished[j] ≠ s.finished[k] := fun hj hk hjk heq =>
    hjk ((List.Nodup.getElem_inj_iff hr.finishedNodup).1 heq)
  obtain ⟨r, h₁⟩ := hlive s.cleared.length (le_refl _) (by omega)
  obtain ⟨r', h₂⟩ := hlive (s.cleared.length + 1) (by omega) (by omega)
  obtain ⟨r'', h₃⟩ := hlive (s.cleared.length + 2) (by omega) (by omega)
  exact hc.not_three h₁ h₂ h₃ (hne _ _ (by omega)) (hne _ _ (by omega)) (hne _ _ (by omega))

theorem toNat_mod_num (n : Nat) : (BitVec.ofNat 16 n).toNat % NUM = n % NUM := by
  rw [BitVec.toNat_ofNat]
  exact Nat.mod_mod_of_dvd n (by decide)

theorem Rings.usedIdx_toNat (hr : s.Rings) : s.usedIdx.toNat = s.cleared.length % NUM := by
  rw [hr.usedIdx, BitVec.toNat_ofNat]
  have : s.cleared.length % 8 < 8 := Nat.mod_lt _ (by decide)
  show s.cleared.length % 8 % 65536 = s.cleared.length % 8
  omega

theorem more_iff (hc : s.Chains h) (hr : s.Rings) :
    s.usedIdx.toNat % NUM ≠ s.usedId.toNat % NUM ↔ s.cleared.length < s.finished.length := by
  have hle := unprocessed_le hc hr
  have hle' := hr.cleared_length_le
  rw [hr.usedIdx_toNat, hr.usedId, toNat_mod_num, Nat.mod_mod]
  show s.cleared.length % 8 ≠ s.finished.length % 8 ↔ _
  omega

end Count

variable {i : Nat}

/-! ### Allocation -/

section Alloc

variable {s t : Disk P B} {h : Option Chain}

/-- The descriptors `idx` are taken. -/
def taking (s : Disk P B) (idx : List Nat) : Disk P B :=
  { s with free := fun i => if i ∈ idx then false else s.free i }

/-- Only descriptors that are free in `s`, and sleepers, differ. -/
structure Frees (s t : Disk P B) : Prop where
  rest : t = { s with free := t.free, desc := t.desc, asleep := t.asleep }
  desc : ∀ i, s.free i = false → t.desc i = s.desc i

section

omit [DecidableEq B]

theorem taking_nil : s.taking [] = s := by
  simp [taking]

theorem setFree_taking (idx : List Nat) (i : Nat) : (s.taking idx).setFree i false = s.taking (idx ++ [i]) := by
  unfold taking setFree
  congr 1
  funext j
  by_cases hj : j = i
  · rw [hj, update_self]
    simp
  · rw [update_of_ne hj]
    simp [hj]

theorem allocDesc_eq_some (halloc : s.allocDesc = some (i, t)) : i < NUM ∧ s.free i = true ∧ t = s.setFree i false := by
  obtain ⟨j, hfind, heq⟩ := Option.map_eq_some_iff.1 halloc
  cases heq
  exact ⟨mem_range.1 (mem_of_find?_eq_some hfind), List.find?_some hfind, rfl⟩

end

theorem freeDesc_eq (hlt : i < NUM) (hused : s.free i = false) : freeDesc i s =
    .ok () (({ s with desc := update s.desc i { s.desc i with addr := .null } }.setFree i true).wakeup .free) := by
  rw [freeDesc, if_neg (Nat.not_le.2 hlt), if_neg (by rw [hused]; exact Bool.false_ne_true)]

theorem freeAll_spec : ∀ {idx : List Nat} {t : Disk P B}, idx.Nodup → (∀ i ∈ idx, i < NUM ∧ s.free i = true) →
    t.free = (s.taking idx).free → s.Frees t → ∃ t', freeAll idx t = .ok () t' ∧ t'.free = s.free ∧ s.Frees t' := by
  intro idx
  induction idx with
  | nil =>
    intro t _ _ hfree hfrees
    refine ⟨t, rfl, ?_, hfrees⟩
    rw [hfree, taking_nil]
  | cons i idx ih =>
    intro t hnodup hidx hfree hfrees
    obtain ⟨hni, hnodup'⟩ := nodup_cons.1 hnodup
    obtain ⟨hlt, htrue⟩ := hidx i (mem_cons_self ..)
    have hused : t.free i = false := by
      rw [hfree]
      exact if_pos (mem_cons_self ..)
    rw [freeAll, freeDesc_eq hlt hused]
    refine ih hnodup' (fun j hj => hidx j (mem_cons_of_mem i hj)) ?_ ⟨?_, fun j hj => ?_⟩
    · funext j
      show update t.free i true j = if j ∈ idx then false else s.free j
      by_cases hji : j = i
      · rw [hji, update_self, if_neg hni, htrue]
      · rw [update_of_ne hji, hfree]
        show (if j ∈ i :: idx then false else s.free j) = _
        simp only [mem_cons, hji, false_or]
    · rw [hfrees.rest]
      rfl
    · show update t.desc i _ j = s.desc j
      rw [update_of_ne, hfrees.desc j hj]
      rintro rfl
      rw [htrue] at hj
      cases hj

theorem allocFrom_spec : ∀ {n : Nat} {idx : List Nat}, idx.Nodup → (∀ i ∈ idx, i < NUM ∧ s.free i = true) →
    (∃ js, js.length = n ∧ (idx ++ js).Nodup ∧ (∀ i ∈ idx ++ js, i < NUM ∧ s.free i = true) ∧
      allocFrom n idx (s.taking idx) = .ok (some (idx ++ js)) (s.taking (idx ++ js))) ∨
    ∃ t, allocFrom n idx (s.taking idx) = .ok none t ∧ t.free = s.free ∧ s.Frees t := by
  intro n
  induction n with
  | zero =>
    intro idx hnodup hidx
    refine Or.inl ⟨[], rfl, ?_, ?_, ?_⟩
    · rwa [append_nil]
    · rwa [append_nil]
    · rw [append_nil]
      rfl
  | succ n ih =>
    intro idx hnodup hidx
    rw [allocFrom]
    cases halloc : (s.taking idx).allocDesc with
    | none =>
      obtain ⟨t, hall, hfree, hfrees⟩ := freeAll_spec (t := s.taking idx) hnodup hidx rfl ⟨rfl, fun _ _ => rfl⟩
      refine Or.inr ⟨t, ?_, hfree, hfrees⟩
      rw [hall]
    | some it =>
      obtain ⟨i, t⟩ := it
      obtain ⟨hlt, htrue, rfl⟩ := allocDesc_eq_some halloc
      have hi : i ∉ idx := by
        intro hmem
        rw [show (s.taking idx).free i = false from if_pos hmem] at htrue
        cases htrue
      have htrue' : s.free i = true := by
        rw [← htrue]
        exact (if_neg hi).symm
      rw [setFree_taking]
      have hnodup' : (idx ++ [i]).Nodup := nodup_append'.2 ⟨hnodup, nodup_singleton i, disjoint_singleton.2 hi⟩
      have hidx' : ∀ j ∈ idx ++ [i], j < NUM ∧ s.free j = true := by
        intro j hj
        rcases mem_append.1 hj with hj | hj
        · exact hidx j hj
        · rw [mem_singleton.1 hj]
          exact ⟨hlt, htrue'⟩
      rcases ih hnodup' hidx' with ⟨js, hlen, hnd, hall, heq⟩ | ⟨t, heq, hfree, hfrees⟩
      · rw [append_assoc] at hnd hall heq
        exact Or.inl ⟨i :: js, congrArg Nat.succ hlen, hnd, hall, heq⟩
      · exact Or.inr ⟨t, heq, hfree, hfrees⟩

/-- `alloc3_desc` gives three free descriptors, or leaves the free ones as they were. -/
theorem alloc3Desc_spec (s : Disk P B) : (∃ c : Chain, c.toList.Nodup ∧ (∀ i ∈ c.toList, i < NUM ∧ s.free i = true) ∧
      s.alloc3Desc = .ok (some c.toList) (s.taking c.toList)) ∨
    ∃ t, s.alloc3Desc = .ok none t ∧ t.free = s.free ∧ s.Frees t := by
  have hspec := @allocFrom_spec P B _ s 3 [] nodup_nil nofun
  rw [taking_nil] at hspec
  rcases hspec with ⟨js, hlen, hnodup, hall, heq⟩ | hnone
  · obtain ⟨i, j, k, rfl⟩ := length_eq_three.1 hlen
    exact Or.inl ⟨⟨i, j, k⟩, hnodup, hall, heq⟩
  · exact Or.inr hnone

end Alloc

/-! ### What each step keeps -/

section Steps

variable {s t : Disk P B} {h : Option Chain} {b : B} {c : Chain} {n : Nat} {r : Request B}

section

omit [DecidableEq B]

theorem Chains.used_of_live (hc : s.Chains h) (hlive : s.Live n r) (hi : i ∈ r.chain.toList) : s.free i = false :=
  (hc.used i (hc.lt n r hlive i hi)).2 (Or.inl ⟨n, r, hlive, hi⟩)

theorem Chain.head_mem (c : Chain) : c.head ∈ c.toList := mem_cons_self ..

theorem Chain.mid_mem (c : Chain) : c.mid ∈ c.toList := mem_cons_of_mem _ (mem_cons_self ..)

theorem Chain.last_mem (c : Chain) : c.last ∈ c.toList :=
  mem_cons_of_mem _ (mem_cons_of_mem _ (mem_cons_self ..))

/-- The descriptors of a chain stay linked if theirs stay. -/
theorem Linked.congr (hl : s.Linked c) (hdesc : ∀ i ∈ c.toList, t.desc i = s.desc i) : t.Linked c where
  head := by
    rw [hdesc _ (Chain.head_mem c)]
    exact hl.head
  mid := by
    rw [hdesc _ (Chain.mid_mem c)]
    exact hl.mid
  last := by
    rw [hdesc _ (Chain.last_mem c)]
    exact hl.last

theorem Chains.alloc (hc : s.Chains none) (hnodup : c.toList.Nodup)
    (hfree : ∀ i ∈ c.toList, i < NUM ∧ s.free i = true) : (s.taking c.toList).Chains (some c) where
  lt := hc.lt
  nodup := hc.nodup
  disjoint := hc.disjoint
  handLt := by
    rintro _ ⟨rfl⟩ i hi
    exact (hfree i hi).1
  handNodup := by
    rintro _ ⟨rfl⟩
    exact hnodup
  handDisjoint := by
    rintro _ n r i ⟨rfl⟩ hlive hi hmem
    have hused := hc.used_of_live hlive hmem
    rw [(hfree i hi).2] at hused
    cases hused
  used i hi := by
    show (if i ∈ c.toList then false else s.free i) = false ↔ _
    split
    · rename_i hmem
      exact iff_of_true rfl (Or.inr ⟨c, rfl, hmem⟩)
    · rename_i hmem
      rw [hc.used i hi]
      constructor
      · rintro (hlive | ⟨_, ⟨⟩, -⟩)
        exact Or.inl hlive
      · rintro (hlive | ⟨_, ⟨rfl⟩, hi'⟩)
        · exact Or.inl hlive
        · exact absurd hi' hmem
  linked n r hlive := (hc.linked n r hlive).congr fun _ _ => rfl
  info := hc.info
  current := hc.current

theorem Frees.chains (hf : s.Frees t) (hfree : t.free = s.free) (hc : s.Chains none) : t.Chains none := by
  have hdesc := hf.desc
  have hlive : ∀ n r, t.Live n r ↔ s.Live n r := by
    intro n r
    rw [hf.rest]
    rfl
  have hinfo : t.info = s.info ∧ t.status = s.status ∧ t.current = s.current ∧ t.busy = s.busy ∧
      t.cleared = s.cleared := by
    rw [hf.rest]
    exact ⟨rfl, rfl, rfl, rfl, rfl⟩
  obtain ⟨h₁, h₂, h₃, h₄, h₅⟩ := hinfo
  constructor
  · simp only [hlive]
    exact hc.lt
  · simp only [hlive]
    exact hc.nodup
  · simp only [hlive]
    exact hc.disjoint
  · exact nofun
  · exact nofun
  · exact nofun
  · simp only [hlive, hfree]
    exact hc.used
  · simp only [hlive]
    exact fun n r hn => (hc.linked n r hn).congr fun i hi => hdesc i (hc.used_of_live hn hi)
  · simp only [hlive, h₁, h₂]
    exact hc.info
  · simp only [hlive, h₃, h₄, h₅]
    exact hc.current

theorem Frees.rings (hf : s.Frees t) (hr : s.Rings) : t.Rings := by
  rw [hf.rest]
  exact { hr with }

end

/-! A request is submitted. -/

theorem format_desc (sector : Nat) (write : Bool) : (s.format b sector write c).desc =
    update (update (update s.desc c.head ⟨.header (if write then 1 else 0) sector, 16, VRING_DESC_F_NEXT, c.mid⟩)
      c.mid ⟨.data b, BSIZE, (if write then 0 else VRING_DESC_F_WRITE) ||| VRING_DESC_F_NEXT, c.last⟩)
      c.last ⟨.status c.head, 1, VRING_DESC_F_WRITE, 0⟩ := rfl

theorem linked_format (sector : Nat) (write : Bool) (hnodup : c.toList.Nodup) :
    (s.format b sector write c).Linked c := by
  obtain ⟨⟨h₁, h₂⟩, h₃⟩ : (c.head ≠ c.mid ∧ c.head ≠ c.last) ∧ c.mid ≠ c.last := by
    simpa [Chain.toList] using hnodup
  constructor
  · rw [format_desc, update_of_ne h₂, update_of_ne h₁, update_self]
    exact ⟨by simp only [VRING_DESC_F_NEXT]; decide, rfl⟩
  · rw [format_desc, update_of_ne h₃, update_self]
    cases write
    · exact ⟨by simp only [VRING_DESC_F_NEXT, VRING_DESC_F_WRITE]; decide, rfl⟩
    · exact ⟨by simp only [VRING_DESC_F_NEXT]; decide, rfl⟩
  · rw [format_desc, update_self]
    exact ⟨by simp only [VRING_DESC_F_NEXT, VRING_DESC_F_WRITE]; decide, rfl⟩

theorem format_desc_of_not_mem (sector : Nat) (write : Bool) (hi : i ∉ c.toList) :
    (s.format b sector write c).desc i = s.desc i := by
  have hne : i ≠ c.head ∧ i ≠ c.mid ∧ i ≠ c.last := by
    simpa [Chain.toList] using hi
  rw [format_desc, update_of_ne hne.2.2, update_of_ne hne.2.1, update_of_ne hne.1]

/-- The state after a request is submitted. -/
def submitted (s : Disk P B) (b : B) (sector : Nat) (write : Bool) (c : Chain) : Disk P B :=
  (s.format b sector write c).publish b c

omit [DecidableEq B] in
theorem Rings.lt_of_finished (hr : s.Rings) (hn : n ∈ s.finished) : n < s.reqs.length :=
  lt_of_lt_of_le (hr.finished n hn) hr.taken_le

theorem live_submitted (hr : s.Rings) (sector : Nat) (write : Bool) :
    (s.submitted b sector write c).Live n r ↔ s.Live n r ∨ n = s.reqs.length ∧ r = ⟨b, c⟩ := by
  show (s.reqs ++ [⟨b, c⟩])[n]? = some r ∧ n ∉ s.returned ↔ _
  rw [getElem?_concat_eq_some, or_and_right]
  refine or_congr_right (and_iff_left_of_imp fun hnew hret => ?_)
  exact hnew.1.not_lt (hr.lt_of_finished (hr.cleared.subset (hr.returned n hret)))

/-- A request for a buffer that no live request is for. -/
theorem Chains.submit (hc : s.Chains (some c)) (hr : s.Rings) (hbuf : ∀ n r, s.Live n r → r.buf ≠ b) (sector : Nat)
    (write : Bool) : (s.submitted b sector write c).Chains none := by
  have hlive : ∀ {n r}, (s.submitted b sector write c).Live n r → s.Live n r ∨ n = s.reqs.length ∧ r = ⟨b, c⟩ :=
    fun h => (live_submitted hr sector write).1 h
  have hhead : ∀ n r, s.Live n r → r.chain.head ≠ c.head := fun n r hn heq =>
    hc.handDisjoint c n r c.head rfl hn (Chain.head_mem c) (heq ▸ Chain.head_mem r.chain)
  constructor
  · intro n r hn
    rcases hlive hn with hold | ⟨-, rfl⟩
    · exact hc.lt n r hold
    · exact hc.handLt c rfl
  · intro n r hn
    rcases hlive hn with hold | ⟨-, rfl⟩
    · exact hc.nodup n r hold
    · exact hc.handNodup c rfl
  · intro n m r r' i hn hm hi hi'
    rcases hlive hn with hold | ⟨rfl, rfl⟩
    · rcases hlive hm with hold' | ⟨rfl, rfl⟩
      · exact hc.disjoint n m r r' i hold hold' hi hi'
      · exact absurd hi (hc.handDisjoint c n r i rfl hold hi')
    · rcases hlive hm with hold' | ⟨rfl, rfl⟩
      · exact absurd hi' (hc.handDisjoint c m r' i rfl hold' hi)
      · rfl
  · exact nofun
  · exact nofun
  · exact nofun
  · intro i hi
    have hused := hc.used i hi
    show s.free i = false ↔ _
    rw [hused]
    constructor
    · rintro (⟨n, r, hold, hmem⟩ | ⟨_, ⟨rfl⟩, hmem⟩)
      · exact Or.inl ⟨n, r, (live_submitted hr sector write).2 (Or.inl hold), hmem⟩
      · exact Or.inl ⟨_, ⟨b, c⟩, (live_submitted hr sector write).2 (Or.inr ⟨rfl, rfl⟩), hmem⟩
    · rintro (⟨n, r, hn, hmem⟩ | ⟨_, ⟨⟩, -⟩)
      rcases hlive hn with hold | ⟨-, rfl⟩
      · exact Or.inl ⟨n, r, hold, hmem⟩
      · exact Or.inr ⟨c, rfl, hmem⟩
  · intro n r hn
    rcases hlive hn with hold | ⟨-, rfl⟩
    · refine (hc.linked n r hold).congr fun i hi => ?_
      exact format_desc_of_not_mem sector write fun hi' => hc.handDisjoint c n r i rfl hold hi' hi
    · exact (linked_format (s := s) (b := b) sector write (hc.handNodup c rfl)).congr fun _ _ => rfl
  · intro n r hn
    show update s.info c.head (some b) _ = _ ∧ update s.status c.head 0 _ = _
    rcases hlive hn with hold | ⟨-, rfl⟩
    · rw [update_of_ne (hhead n r hold), update_of_ne (hhead n r hold)]
      exact hc.info n r hold
    · rw [update_self, update_self]
      exact ⟨rfl, rfl⟩
  · intro n r hn
    show update s.current b s.reqs.length _ = _ ∧ (update s.busy b true _ = _ ↔ n ∉ s.cleared)
    rcases hlive hn with hold | ⟨rfl, rfl⟩
    · rw [update_of_ne (hbuf n r hold), update_of_ne (hbuf n r hold)]
      exact hc.current n r hold
    · rw [update_self, update_self]
      refine ⟨rfl, iff_of_true rfl fun hclr => ?_⟩
      exact lt_irrefl _ (hr.lt_of_finished (hr.cleared.subset hclr))

theorem Rings.submit (hr : s.Rings) (hc : s.Chains h) (sector : Nat) (write : Bool) :
    (s.submitted b sector write c).Rings := by
  have hreqs : (s.submitted b sector write c).reqs = s.reqs ++ [⟨b, c⟩] := rfl
  have hold : ∀ n, n < s.reqs.length → (s.submitted b sector write c).reqs[n]? = s.reqs[n]? := fun n hn =>
    List.getElem?_append_left hn
  have havail := available_le hc hr
  refine { hr with availIdx := ?_, taken_le := ?_, avail := ?_, accepted := ?_, elems := ?_ }
  · rw [hreqs, length_append, length_singleton, BitVec.ofNat_add, ← hr.availIdx]
    rfl
  · rw [hreqs, length_append]
    exact le_trans hr.taken_le (Nat.le_add_right ..)
  · intro n r hn hsome
    show update s.avail (s.availIdx.toNat % NUM) c.head (n % NUM) = _
    have hidx : s.availIdx.toNat % NUM = s.reqs.length % 8 := by
      rw [hr.availIdx, toNat_mod_num]
      rfl
    have hle : s.taken ≤ n := hn
    rw [hreqs] at hsome
    rcases getElem?_concat_eq_some.1 hsome with hsome | ⟨rfl, rfl⟩
    · have hlt := (List.getElem?_eq_some_iff.1 hsome).1
      rw [hidx, update_of_ne]
      · exact hr.avail n r hn hsome
      · show n % 8 ≠ s.reqs.length % 8
        omega
    · rw [hidx, show s.reqs.length % NUM = s.reqs.length % 8 from rfl, update_self]
  · intro n i hn
    obtain ⟨hlt, hfin, hreq⟩ := hr.accepted n i hn
    refine ⟨hlt, hfin, ?_⟩
    rw [hold n (lt_of_lt_of_le hlt hr.taken_le)]
    exact hreq
  · intro k n r hk hn hsome
    have hfin : s.finished[k]? = some n := hn
    rw [hold n (hr.lt_of_finished (mem_of_getElem? hfin))] at hsome
    exact hr.elems k n r hk hn hsome

/-! A request has been waited for. -/

/-- `free_desc` frees `i`. -/
def freed (s : Disk P B) (i : Nat) : Disk P B :=
  ({ s with desc := update s.desc i { s.desc i with addr := .null } }.setFree i true).wakeup .free

/-- The state after `free_chain`. -/
def retired (s : Disk P B) (b : B) (c : Chain) : Disk P B :=
  ((({ s with info := update s.info c.head none, returned := s.returned ++ [s.current b] }.freed c.head).freed
    c.mid).freed c.last)

theorem freed_free (i j : Nat) : (s.freed i).free j = update s.free i true j := rfl

theorem freed_desc (i j : Nat) : ((s.freed i).desc j).flags = (s.desc j).flags ∧ ((s.freed i).desc j).next = (s.desc j).next := by
  show (update s.desc i _ j).flags = _ ∧ (update s.desc i _ j).next = _
  by_cases hj : j = i
  · rw [hj, update_self]
    exact ⟨rfl, rfl⟩
  · rw [update_of_ne hj]
    exact ⟨rfl, rfl⟩

theorem freeChain_succ {fuel i : Nat} (hlt : i < NUM) (hused : s.free i = false) : freeChain (fuel + 1) i s =
    if (s.desc i).flags &&& VRING_DESC_F_NEXT ≠ 0 then freeChain fuel (s.desc i).next (s.freed i)
    else .ok () (s.freed i) := by
  rw [← (s.freed_desc i i).1, ← (s.freed_desc i i).2, freeChain, freeDesc_eq hlt hused]
  rfl

/-- `free_chain` frees the three descriptors of a chain, without a panic. -/
theorem freeChain_eq (fuel : Nat) (hl : s.Linked c) (hnodup : c.toList.Nodup) (hlt : ∀ i ∈ c.toList, i < NUM)
    (hused : ∀ i ∈ c.toList, s.free i = false) :
    freeChain (fuel + 3) c.head s = .ok () (((s.freed c.head).freed c.mid).freed c.last) := by
  obtain ⟨⟨h₁, h₂⟩, h₃⟩ : (c.head ≠ c.mid ∧ c.head ≠ c.last) ∧ c.mid ≠ c.last := by
    simpa [Chain.toList] using hnodup
  have hmid : (s.freed c.head).free c.mid = false := by
    rw [freed_free, update_of_ne h₁.symm]
    exact hused _ (Chain.mid_mem c)
  have hlast : ((s.freed c.head).freed c.mid).free c.last = false := by
    rw [freed_free, update_of_ne h₃.symm, freed_free, update_of_ne h₂.symm]
    exact hused _ (Chain.last_mem c)
  rw [freeChain_succ (hlt _ (Chain.head_mem c)) (hused _ (Chain.head_mem c)), if_pos hl.head.1, hl.head.2]
  rw [freeChain_succ (hlt _ (Chain.mid_mem c)) hmid, (freed_desc ..).1, (freed_desc ..).2, if_pos hl.mid.1, hl.mid.2]
  rw [freeChain_succ (hlt _ (Chain.last_mem c)) hlast, (freed_desc ..).1, (freed_desc ..).1,
    if_neg (not_not.2 hl.last.1)]

theorem retire_eq (hc : s.Chains h) (hlive : s.Live n ⟨b, c⟩) : s.retire b c = .ok () (s.retired b c) :=
  freeChain_eq 6 ((hc.linked n _ hlive).congr fun _ _ => rfl) (hc.nodup n _ hlive) (hc.lt n _ hlive)
    fun _ hi => hc.used_of_live hlive hi

theorem retired_free (i : Nat) : (s.retired b c).free i = if i ∈ c.toList then true else s.free i := by
  show update (update (update s.free c.head true) c.mid true) c.last true i = _
  simp only [update_apply, Chain.toList, mem_cons, not_mem_nil, or_false]
  split_ifs <;> simp_all

theorem retired_desc (hi : i ∉ c.toList) : (s.retired b c).desc i = s.desc i := by
  have hne : i ≠ c.head ∧ i ≠ c.mid ∧ i ≠ c.last := by
    simpa [Chain.toList] using hi
  show update (update (update s.desc c.head _) c.mid _) c.last _ i = _
  rw [update_of_ne hne.2.2, update_of_ne hne.2.1, update_of_ne hne.1]

theorem live_retired {m : Nat} {q : Request B} (hcur : s.current b = n) :
    (s.retired b c).Live m q ↔ s.Live m q ∧ m ≠ n := by
  show s.reqs[m]? = some q ∧ m ∉ s.returned ++ [s.current b] ↔ _
  rw [hcur, mem_append, mem_singleton, not_or]
  exact and_assoc.symm

theorem Chains.retire (hc : s.Chains none) (hlive : s.Live n ⟨b, c⟩) : (s.retired b c).Chains none := by
  have hiff : ∀ {m : Nat} {q : Request B}, (s.retired b c).Live m q ↔ s.Live m q ∧ m ≠ n :=
    live_retired (hc.current n _ hlive).1
  have hout : ∀ {m : Nat} {q : Request B}, s.Live m q ∧ m ≠ n → ∀ i ∈ q.chain.toList, i ∉ c.toList :=
    fun hm i hi hi' => hm.2 (hc.disjoint _ n _ ⟨b, c⟩ i hm.1 hlive hi hi')
  constructor
  · exact fun m q hm => hc.lt m q (hiff.1 hm).1
  · exact fun m q hm => hc.nodup m q (hiff.1 hm).1
  · exact fun m k q q' i hm hk => hc.disjoint m k q q' i (hiff.1 hm).1 (hiff.1 hk).1
  · exact nofun
  · exact nofun
  · exact nofun
  · intro i hi
    rw [retired_free]
    constructor
    · intro hfalse
      split at hfalse
      · cases hfalse
      · rename_i hnot
        rcases (hc.used i hi).1 hfalse with ⟨m, q, hm, hmem⟩ | ⟨_, ⟨⟩, -⟩
        refine Or.inl ⟨m, q, hiff.2 ⟨hm, ?_⟩, hmem⟩
        rintro rfl
        have heq : some q = some ⟨b, c⟩ := hm.1.symm.trans hlive.1
        cases heq
        exact hnot hmem
    · rintro (⟨m, q, hm, hmem⟩ | ⟨_, ⟨⟩, -⟩)
      rw [if_neg (hout (hiff.1 hm) i hmem)]
      exact hc.used_of_live (hiff.1 hm).1 hmem
  · intro m q hm
    refine (hc.linked m q (hiff.1 hm).1).congr fun i hi => ?_
    exact retired_desc (hout (hiff.1 hm) i hi)
  · intro m q hm
    show update s.info c.head none q.chain.head = _ ∧ _
    have hne : q.chain.head ≠ c.head := fun heq =>
      hout (hiff.1 hm) _ (Chain.head_mem q.chain) (heq ▸ Chain.head_mem c)
    rw [update_of_ne hne]
    exact hc.info m q (hiff.1 hm).1
  · exact fun m q hm => hc.current m q (hiff.1 hm).1

theorem Rings.retire (hr : s.Rings) (hclr : s.current b ∈ s.cleared) : (s.retired b c).Rings := by
  refine { hr with returned := fun n hn => ?_ }
  rcases mem_append.1 hn with hn | hn
  · exact hr.returned n hn
  · rw [mem_singleton.1 hn]
    exact hclr

/-! The handler looks at an element of the ring of used ones. -/

/-- The handler clears `b->disk` for request `n`, which is `r`. -/
def completed (s : Disk P B) (n : Nat) (r : Request B) : Disk P B :=
  { s with
    busy := update s.busy r.buf false
    usedIdx := BitVec.ofNat 16 ((s.usedIdx.toNat + 1) % NUM)
    cleared := s.cleared ++ [n] }.wakeup (.buf r.buf)

theorem complete_eq (hc : s.Chains h) (hr : s.Rings) (hlt : s.cleared.length < s.finished.length) :
    ∃ n r, s.finished[s.cleared.length]? = some n ∧ s.Live n r ∧ s.complete = .ok () (s.completed n r) := by
  have hn := List.getElem?_eq_getElem hlt
  obtain ⟨r, hlive⟩ := live_of_unprocessed hr (le_refl _) hn
  refine ⟨_, r, hn, hlive, ?_⟩
  have hid : s.elems s.usedIdx.toNat = r.chain.head := by
    rw [hr.usedIdx_toNat]
    exact hr.elems _ _ r (le_refl _) hn hlive.1
  obtain ⟨hinfo, hstatus⟩ := hc.info _ r hlive
  unfold complete
  simp only [hid, hstatus, hinfo, (hc.current _ r hlive).1]
  rfl

theorem Chains.complete (hc : s.Chains h) (hlive : s.Live n r) : (s.completed n r).Chains h := by
  refine { hc with linked := fun m q hm => (hc.linked m q hm).congr fun _ _ => rfl, current := fun m q hm => ?_ }
  have hm' : s.Live m q := hm
  refine ⟨(hc.current m q hm').1, ?_⟩
  show update s.busy r.buf false q.buf = true ↔ m ∉ s.cleared ++ [n]
  rw [mem_append, mem_singleton, not_or]
  by_cases hmn : m = n
  · have heq : some q = some r := by
      rw [← hm'.1, hmn, hlive.1]
    rw [Option.some.inj heq, update_self]
    exact iff_of_false Bool.false_ne_true fun hand => hand.2 hmn
  · have hbuf : q.buf ≠ r.buf := fun heq =>
      hmn ((hc.current m q hm').1.symm.trans (heq ▸ (hc.current n r hlive).1))
    rw [update_of_ne hbuf, (hc.current m q hm').2]
    exact (and_iff_left hmn).symm

theorem Rings.complete (hr : s.Rings) (hn : s.finished[s.cleared.length]? = some n) : (s.completed n r).Rings := by
  refine { hr with cleared := ?_, usedIdx := ?_, elems := ?_, returned := ?_ }
  · show s.cleared ++ [n] <+: s.finished
    obtain ⟨rest, hrest⟩ := hr.cleared
    rw [← hrest, List.getElem?_append_right (le_refl _), Nat.sub_self] at hn
    obtain ⟨rest', rfl⟩ := List.head?_eq_some_iff.1 (List.head?_eq_getElem?.trans hn)
    exact ⟨rest', by rw [← hrest, append_assoc]; rfl⟩
  · show BitVec.ofNat 16 ((s.usedIdx.toNat + 1) % NUM) = BitVec.ofNat 16 ((s.cleared ++ [n]).length % NUM)
    rw [hr.usedIdx_toNat, Nat.mod_add_mod, length_append]
    rfl
  · intro k m q hk hm hq
    refine hr.elems k m q ?_ hm hq
    have hk' : (s.cleared ++ [n]).length ≤ k := hk
    rw [length_append] at hk'
    omega
  · exact fun m hm => mem_append_left _ (hr.returned m hm)

/-! The device. -/

/-- The device takes the next chain. -/
def took (s : Disk P B) : Disk P B :=
  { s with
    lastAvail := s.lastAvail + 1
    taken := s.taken + 1
    accepted := s.accepted ++ [(s.taken, s.avail (s.lastAvail.toNat % NUM))] }

omit [DecidableEq B] in
theorem Rings.take (hr : s.Rings) (hne : s.lastAvail ≠ s.availIdx) : s.took.Rings := by
  have hlt : s.taken < s.reqs.length := by
    refine lt_of_le_of_ne hr.taken_le fun heq => hne ?_
    rw [hr.lastAvail, hr.availIdx, heq]
  have hhead : s.avail (s.lastAvail.toNat % NUM) = s.reqs[s.taken].chain.head := by
    rw [hr.lastAvail, toNat_mod_num]
    exact hr.avail s.taken _ (le_refl _) (List.getElem?_eq_getElem hlt)
  refine { hr with lastAvail := ?_, taken_le := hlt, avail := ?_, accepted := ?_, acceptedNodup := ?_, finished := ?_ }
  · show s.lastAvail + 1 = BitVec.ofNat 16 (s.taken + 1)
    rw [BitVec.ofNat_add, ← hr.lastAvail]
    rfl
  · exact fun n r hn => hr.avail n r (le_trans (Nat.le_succ _) hn)
  · intro n i hn
    rcases mem_append.1 hn with hn | hn
    · obtain ⟨hlt', hrest⟩ := hr.accepted n i hn
      exact ⟨Nat.lt_succ_of_lt hlt', hrest⟩
    · cases mem_singleton.1 hn
      refine ⟨Nat.lt_succ_self _, fun hfin => lt_irrefl _ (hr.finished _ hfin), ?_⟩
      exact ⟨_, List.getElem?_eq_getElem hlt, hhead.symm⟩
  · show ((s.accepted ++ [_]).map Prod.fst).Nodup
    rw [map_append, map_singleton]
    refine nodup_append'.2 ⟨hr.acceptedNodup, nodup_singleton _, ?_⟩
    rw [disjoint_singleton]
    intro hmem
    obtain ⟨⟨n, i⟩, hin, heq⟩ := mem_map.1 hmem
    exact absurd (hr.accepted n i hin).1 (by rw [show n = s.taken from heq]; exact lt_irrefl _)
  · exact fun n hn => Nat.lt_succ_of_lt (hr.finished n hn)

/-- The device finishes request `n`, the `k`th that it has accepted. -/
def ended (s : Disk P B) (k n head : Nat) : Disk P B :=
  (({ s with accepted := s.accepted.eraseIdx k }).setStatus head).putUsed n head

omit [DecidableEq B]

theorem live_of_accepted (hr : s.Rings) (hn : (n, i) ∈ s.accepted) : ∃ r, s.Live n r ∧ r.chain.head = i := by
  obtain ⟨-, hfin, r, hr', hhead⟩ := hr.accepted n i hn
  exact ⟨r, ⟨hr', fun hret => hfin (hr.cleared.subset (hr.returned n hret))⟩, hhead⟩

theorem setStatus_eq (hl : s.Linked c) : s.setStatus c.head = { s with status := update s.status c.head 0 } := by
  unfold setStatus
  rw [hl.head.2, hl.mid.2, hl.last.2]

theorem ended_eq (hc : s.Chains h) (hr : s.Rings) {k head : Nat} (hk : s.accepted[k]? = some (n, head)) :
    s.ended k n head = { s with
      accepted := s.accepted.eraseIdx k
      status := update s.status head 0
      elems := update s.elems (s.usedId.toNat % NUM) head
      usedId := s.usedId + 1
      finished := s.finished ++ [n]
      due := true } := by
  obtain ⟨r, hlive, rfl⟩ := live_of_accepted hr (mem_of_getElem? hk)
  have hl : ({ s with accepted := s.accepted.eraseIdx k } : Disk P B).Linked r.chain :=
    (hc.linked n r hlive).congr fun _ _ => rfl
  unfold ended
  rw [setStatus_eq hl]
  rfl

theorem Chains.finish (hc : s.Chains h) (hr : s.Rings) {k head : Nat} (hk : s.accepted[k]? = some (n, head)) :
    (s.ended k n head).Chains h := by
  rw [ended_eq hc hr hk]
  refine { hc with linked := fun m q hm => (hc.linked m q hm).congr fun _ _ => rfl, info := fun m q hm => ?_ }
  obtain ⟨hinfo, hstatus⟩ := hc.info m q hm
  refine ⟨hinfo, ?_⟩
  show update s.status head 0 q.chain.head = 0
  rw [update_apply, hstatus, ite_self]

theorem Rings.finish (hc : s.Chains h) (hr : s.Rings) {k head : Nat} (hk : s.accepted[k]? = some (n, head)) :
    (s.ended k n head).Rings := by
  have hmem := mem_of_getElem? hk
  obtain ⟨hlt, hfin, r, hreq, hhead⟩ := hr.accepted n head hmem
  have hle := unprocessed_le hc hr
  have hclr := hr.cleared_length_le
  rw [ended_eq hc hr hk]
  refine { hr with
    accepted := ?_, acceptedNodup := ?_, finished := ?_, finishedNodup := ?_, usedId := ?_, cleared := ?_
    elems := ?_ }
  · intro m i hm
    have hm' : (m, i) ∈ s.accepted.eraseIdx k := hm
    obtain ⟨hlt', hfin', hreq'⟩ := hr.accepted m i (mem_of_mem_eraseIdx hm')
    refine ⟨hlt', ?_, hreq'⟩
    show m ∉ s.finished ++ [n]
    rw [mem_append, mem_singleton, not_or]
    refine ⟨hfin', ?_⟩
    rintro rfl
    obtain ⟨j, hj, hne, hjm⟩ := mem_eraseIdx_iff_getElem.1 hm'
    have hj' : (s.accepted.map Prod.fst)[j]? = some m := by
      rw [List.getElem?_map, List.getElem?_eq_getElem hj, hjm]
      rfl
    have hk' : (s.accepted.map Prod.fst)[k]? = some m := by
      rw [List.getElem?_map, hk]
      rfl
    exact hne ((List.getElem?_inj (by rwa [length_map]) hr.acceptedNodup).1 (hj'.trans hk'.symm))
  · exact hr.acceptedNodup.sublist ((eraseIdx_sublist ..).map _)
  · intro m hm
    rcases mem_append.1 hm with hm | hm
    · exact hr.finished m hm
    · rw [mem_singleton.1 hm]
      exact hlt
  · exact nodup_append'.2 ⟨hr.finishedNodup, nodup_singleton _, disjoint_singleton.2 hfin⟩
  · show s.usedId + 1 = BitVec.ofNat 16 (s.finished ++ [n]).length
    rw [length_append, BitVec.ofNat_add, ← hr.usedId]
    rfl
  · exact hr.cleared.trans (prefix_append ..)
  · intro j m q hj hm hq
    show update s.elems (s.usedId.toNat % NUM) head (j % NUM) = _
    have hj' : s.cleared.length ≤ j := hj
    rw [hr.usedId, toNat_mod_num]
    rcases getElem?_concat_eq_some.1 hm with hm | ⟨rfl, rfl⟩
    · have hlt := (List.getElem?_eq_some_iff.1 hm).1
      rw [update_of_ne]
      · exact hr.elems j m q hj hm hq
      · show j % 8 ≠ s.finished.length % 8
        omega
    · have heq : some q = some r := hq.symm.trans hreq
      rw [update_self, Option.some.inj heq, hhead]

end Steps

end Disk

end Virtio

end Xv6
