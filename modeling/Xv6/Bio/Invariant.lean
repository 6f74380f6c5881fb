import Xv6.Bio.Cache

/-! What a process has of the buffer cache, and what holds of the cache and of all processes. The first
invariant is about references and locks; the second about contents, and needs the protocol: a buffer
that was changed is logged or written before it is released. Both speak of the pending blocks: those of
the transaction in memory that `install_trans` has not installed yet. -/

namespace Xv6

open Lib Function

/-- How the content of a locked buffer stands to the disk: changed since it was logged or written;
pending or equal to the disk; equal to the disk. -/
inductive Status where
  | dirty
  | safe
  | synced
  deriving DecidableEq

/-- A buffer that `bread` gave to a process. -/
structure Held where
  blockno : Nat
  data : Block
  status : Status

/-- A buffer inside `bread` or `brelse`: referenced, then locked; unlocked, then no longer
referenced. -/
inductive Transit where
  | none
  | got (i : Fin NBUF) (blockno : Nat)
  | locked (i : Fin NBUF) (blockno : Nat)
  | put (i : Fin NBUF) (blockno : Nat)

/-- The buffer in transit and its block. -/
def Transit.buf : Transit → Option (Fin NBUF × Nat)
  | none => .none
  | got i b | locked i b | put i b => some (i, b)

/-- What a process has of the cache. -/
structure Bufs where
  held : Fin NBUF → Option Held
  transit : Transit

namespace Bufs

def empty : Bufs := ⟨fun _ => none, .none⟩

def heldCount (r : Bufs) (i : Fin NBUF) : Nat := (r.held i).elim 0 fun _ => 1

def transitCount (r : Bufs) (i : Fin NBUF) : Nat := r.transit.buf.elim 0 fun x => if x.1 = i then 1 else 0

def count (r : Bufs) (i : Fin NBUF) : Nat := r.heldCount i + r.transitCount i

/-- The process has the sleep lock of buffer `i`. -/
def Locks (r : Bufs) (i : Fin NBUF) : Prop := (r.held i).isSome ∨ ∃ b, r.transit = .locked i b

/-! The steps of `bread` and `brelse`. -/

def get (r : Bufs) (i : Fin NBUF) (b : Nat) : Bufs := { r with transit := .got i b }

def lock (r : Bufs) (i : Fin NBUF) (b : Nat) : Bufs := { r with transit := .locked i b }

def hold (r : Bufs) (i : Fin NBUF) (h : Held) : Bufs := ⟨update r.held i (some h), .none⟩

def drop (r : Bufs) (i : Fin NBUF) (b : Nat) : Bufs := ⟨update r.held i none, .put i b⟩

def put (r : Bufs) : Bufs := { r with transit := .none }

variable {r : Bufs} {i j : Fin NBUF} {b : Nat} {h : Held}

theorem count_get (ht : r.transit = .none) : (r.get i b).count j = r.count j + if i = j then 1 else 0 := by
  simp [count, heldCount, transitCount, get, ht, Transit.buf]

theorem count_lock (ht : r.transit = .got i b) : (r.lock i b).count j = r.count j := by
  simp [count, heldCount, transitCount, lock, ht, Transit.buf]

theorem count_hold (ht : r.transit = .locked i b) (hn : r.held i = none) : (r.hold i h).count j = r.count j := by
  by_cases hj : j = i
  · subst hj
    simp [count, heldCount, transitCount, hold, ht, hn, Transit.buf]
  · simp [count, heldCount, transitCount, hold, ht, Transit.buf, hj, Ne.symm hj]

theorem count_drop (ht : r.transit = .none) (hs : (r.held i).isSome) : (r.drop i b).count j = r.count j := by
  obtain ⟨x, hx⟩ := Option.isSome_iff_exists.1 hs
  by_cases hj : j = i
  · subst hj
    simp [count, heldCount, transitCount, drop, ht, hx, Transit.buf]
  · simp [count, heldCount, transitCount, drop, ht, Transit.buf, hj, Ne.symm hj]

theorem count_put (ht : r.transit = .put i b) : r.put.count j + (if i = j then 1 else 0) = r.count j := by
  simp [count, heldCount, transitCount, put, ht, Transit.buf]

theorem locks_get (ht : r.transit = .none) : (r.get i b).Locks j ↔ r.Locks j := by
  simp [Locks, get, ht]

theorem locks_lock (ht : r.transit = .got i b) : (r.lock i b).Locks j ↔ r.Locks j ∨ i = j := by
  simp [Locks, lock, ht]

theorem locks_hold (ht : r.transit = .locked i b) : (r.hold i h).Locks j ↔ r.Locks j := by
  by_cases hj : j = i
  · subst hj
    simp [Locks, hold, ht]
  · simp [Locks, hold, ht, hj, Ne.symm hj]

theorem locks_drop (ht : r.transit = .none) : (r.drop i b).Locks j ↔ r.Locks j ∧ i ≠ j := by
  by_cases hj : j = i
  · subst hj
    simp [Locks, drop]
  · simp [Locks, drop, ht, hj, Ne.symm hj]

theorem locks_put (ht : r.transit = .put i b) : r.put.Locks j ↔ r.Locks j := by
  simp [Locks, put, ht]

def set (r : Bufs) (i : Fin NBUF) (h : Held) : Bufs := { r with held := update r.held i (some h) }

theorem count_set (hs : (r.held i).isSome) : (r.set i h).count j = r.count j := by
  obtain ⟨x, hx⟩ := Option.isSome_iff_exists.1 hs
  by_cases hj : j = i
  · subst hj
    simp [count, heldCount, transitCount, set, hx]
  · simp [count, heldCount, transitCount, set, hj]

theorem locks_set (hs : (r.held i).isSome) : (r.set i h).Locks j ↔ r.Locks j := by
  by_cases hj : j = i
  · subst hj
    simp [Locks, set, hs]
  · simp [Locks, set, hj]

theorem held_of_count_eq_zero (hr : r.count i = 0) : r.held i = none := by
  cases hh : r.held i with
  | none => rfl
  | some x => simp [count, heldCount, hh] at hr

theorem transit_of_count_eq_zero (hr : r.count i = 0) : r.transit.buf ≠ some (i, b) := by
  intro hb
  simp [count, transitCount, hb] at hr

end Bufs

namespace Cache

variable {P : Type} [Procs P] {c c' : Cache P} {pend : List Nat} {β : P → Bufs} {p : P} {i : Fin NBUF}

/-- Buffer `i` caches one of the given blocks. -/
def Holds (c : Cache P) (i : Fin NBUF) (blocks : List Nat) : Prop :=
  (c.buf i).dev = ROOTDEV ∧ (c.buf i).blockno ∈ blocks

instance (c : Cache P) (i : Fin NBUF) (blocks : List Nat) : Decidable (c.Holds i blocks) :=
  inferInstanceAs (Decidable (_ ∧ _))

/-- The reference that `log_write` takes to a pending block. -/
def pin (c : Cache P) (i : Fin NBUF) (pend : List Nat) : Nat := if c.Holds i pend then 1 else 0

/-- Buffer `i` is as its holder knows it. -/
structure Has (c : Cache P) (i : Fin NBUF) (h : Held) : Prop where
  dev : (c.buf i).dev = ROOTDEV
  blockno : (c.buf i).blockno = h.blockno
  valid : (c.buf i).valid = true
  data : (c.buf i).data = h.data
  synced : h.status = .synced → h.data = c.disk h.blockno

/-- References and locks: the sleep lock of a buffer is the lock of the process that has it, and its
reference count is the number of references the processes have and one for a pending block. -/
structure Refs (c : Cache P) (pend : List Nat) (β : P → Bufs) : Prop where
  lru : ∀ i, i ∈ c.lru
  lock : ∀ i p, (c.buf i).lock = some p ↔ (β p).Locks i
  refs : ∀ i p, (c.refs p).count i = (β p).count i
  refcnt : ∀ i, (c.buf i).refcnt = ∑ p, (β p).count i + c.pin i pend

/-- A process knows the block of every buffer it has, and the content of those it holds. -/
structure Knows (c : Cache P) (p : P) (r : Bufs) : Prop where
  held : ∀ i h, r.held i = some h → c.Has i h
  transit : ∀ i b, r.transit.buf = some (i, b) → (c.buf i).dev = ROOTDEV ∧ (c.buf i).blockno = b
  fresh : ∀ i b, r.transit = .locked i b → r.held i = none
  asked : ∀ i b, r.transit = .got i b ∨ r.transit = .locked i b → c.asked p = (ROOTDEV, b)

/-- Blocks: no two buffers cache the same one, and the pending ones are cached. -/
structure Blocks (c : Cache P) (pend : List Nat) (β : P → Bufs) : Prop where
  assigned : ∀ i, (c.buf i).valid → (c.buf i).dev = ROOTDEV
  unique : ∀ i j, (c.buf i).dev = ROOTDEV → (c.buf j).dev = ROOTDEV →
    (c.buf i).blockno = (c.buf j).blockno → i = j
  pinned : ∀ b ∈ pend, ∃ i, (c.buf i).dev = ROOTDEV ∧ (c.buf i).blockno = b ∧ (c.buf i).valid
  knows : ∀ p, c.Knows p (β p)

/-- Contents: a cached block has the content last stored in it, and so has a block of the disk that is
not cached; a cached block that nobody is changing is pending or equal to the disk. -/
structure Data (c : Cache P) (pend : List Nat) (β : P → Bufs) : Prop where
  cached : ∀ i, (c.buf i).valid → (c.buf i).data = c.stored (c.buf i).blockno
  uncached : ∀ b, (∀ i, (c.buf i).valid → (c.buf i).blockno ≠ b) → c.disk b = c.stored b
  clean : ∀ i, (c.buf i).valid → (∀ p h, (β p).held i = some h → h.status ≠ .dirty) →
    (c.buf i).blockno ∈ pend ∨ (c.buf i).data = c.disk (c.buf i).blockno

theorem refs_binit (disk : Nat → Block) : Refs (binit disk : Cache P) [] (fun _ => Bufs.empty) := by
  constructor <;> simp [binit, Bufs.empty, Bufs.Locks, Bufs.count, Bufs.heldCount, Bufs.transitCount,
    Transit.buf, pin, Holds, ROOTDEV]

omit [Procs P] in
theorem blocks_binit (disk : Nat → Block) : Blocks (binit disk : Cache P) [] (fun _ => Bufs.empty) := by
  refine ⟨?_, ?_, ?_, fun p => ⟨?_, ?_, ?_, ?_⟩⟩ <;> simp [binit, Bufs.empty, Transit.buf, ROOTDEV]

omit [Procs P] in
theorem data_binit (disk : Nat → Block) : Data (binit disk : Cache P) [] (fun _ => Bufs.empty) := by
  constructor <;> simp [binit]

/-! ### References -/

omit [Procs P] in
theorem inc_eq [Procs P] {n : Nat} (h : n ≤ Fintype.card P + 1) : inc n = n + 1 := by
  have hfew := Procs.few (P := P)
  exact Nat.mod_eq_of_lt (by omega)

theorem dec_eq {n : Nat} (hpos : 0 < n) (h : n < 2 ^ 32) : dec n = n - 1 := by
  rw [dec]
  omega

omit [Procs P] in
theorem pin_congr {j : Fin NBUF} (hdev : (c'.buf j).dev = (c.buf j).dev)
    (hblock : (c'.buf j).blockno = (c.buf j).blockno) : c'.pin j pend = c.pin j pend := by
  have hiff : c'.Holds j pend ↔ c.Holds j pend := by rw [Holds, Holds, hdev, hblock]
  simp only [pin, hiff]

omit [Procs P] in
theorem pin_le (c : Cache P) (j : Fin NBUF) (pend : List Nat) : c.pin j pend ≤ 1 := by
  rw [pin]
  split <;> omega

namespace Refs

theorem lock_unique (h : Refs c pend β) {q : P} (hp : (β p).Locks i) (hq : (β q).Locks i) : p = q := by
  have hlock := (h.lock i p).2 hp
  rw [(h.lock i q).2 hq] at hlock
  exact (Option.some.inj hlock).symm

theorem count_le (h : ∀ p q, (β p).Locks i → (β q).Locks i → p = q) : ∑ p, (β p).count i ≤ Fintype.card P + 1 := by
  have hlocks : ∀ p, (β p).heldCount i ≠ 0 → (β p).Locks i := by
    intro p hp
    refine Or.inl ?_
    rw [Bufs.heldCount] at hp
    cases hheld : (β p).held i with
    | none => simp [hheld] at hp
    | some x => rfl
  have hheld : ∑ p, (β p).heldCount i ≤ 1 := by
    refine sum_le_one (fun p => ?_) fun p q hp hq => h p q (hlocks p hp) (hlocks q hq)
    rw [Bufs.heldCount]
    cases (β p).held i <;> simp
  have htransit : ∑ p, (β p).transitCount i ≤ Fintype.card P := by
    have hle := Finset.sum_le_card_nsmul Finset.univ (fun p => (β p).transitCount i) 1 fun p _ => by
      rw [Bufs.transitCount]
      cases (β p).transit.buf with
      | none => exact Nat.zero_le 1
      | some x => simp only [Option.elim]; split <;> omega
    simpa using hle
  unfold Bufs.count
  rw [Finset.sum_add_distrib]
  omega

theorem locks_update {r : Bufs} (hr : ∀ j, r.Locks j ↔ (β p).Locks j) (q : P) (j : Fin NBUF) :
    (update β p r q).Locks j ↔ (β q).Locks j :=
  iff_of_eq (apply_update_eq (f := fun r : Bufs => r.Locks j) (propext (hr j)) q)

theorem sum_count_update (β : P → Bufs) (p : P) (r : Bufs) (j : Fin NBUF) :
    ∑ q, (update β p r q).count j + (β p).count j = ∑ q, (β q).count j + r.count j :=
  sum_update (fun r : Bufs => r.count j) β p r

variable {b : Nat}

section

variable (h : Refs c pend β)
include h

/-- A step that changes neither locks nor references. -/
theorem congr {r : Bufs} (hlru : c'.lru = c.lru) (hrefs : c'.refs = c.refs)
    (hbuf : ∀ j, (c'.buf j).lock = (c.buf j).lock ∧ (c'.buf j).refcnt = (c.buf j).refcnt ∧
      (c'.buf j).dev = (c.buf j).dev ∧ (c'.buf j).blockno = (c.buf j).blockno)
    (hlocks : ∀ j, r.Locks j ↔ (β p).Locks j) (hcount : ∀ j, r.count j = (β p).count j) :
    Refs c' pend (update β p r) where
  lru := by rw [hlru]; exact h.lru
  lock j q := by rw [(hbuf j).1, locks_update hlocks, h.lock]
  refs j q := by
    rw [hrefs, h.refs]
    exact (apply_update_eq (f := fun r : Bufs => r.count j) (hcount j) q).symm
  refcnt j := by
    obtain ⟨-, hn, hdev, hblock⟩ := hbuf j
    have hsum := sum_count_update β p r j
    have hold := h.refcnt j
    rw [hcount] at hsum
    rw [hn, pin_congr hdev hblock]
    omega

theorem refcnt_le (j : Fin NBUF) : (c.buf j).refcnt ≤ Fintype.card P + 2 := by
  have hle := count_le fun p q => h.lock_unique (p := p) (q := q) (i := j)
  have hpin := pin_le c j pend
  rw [h.refcnt]
  omega

theorem refcnt_lt (j : Fin NBUF) : (c.buf j).refcnt < 2 ^ 32 :=
  (h.refcnt_le j).trans_lt Procs.few

/-- `bget` takes a reference to buffer `i`, which becomes `x`. -/
theorem take {x : Buf P} (ht : (β p).transit = .none) (hlock : x.lock = (c.buf i).lock)
    (hn : ((c.setBuf i x).took p ROOTDEV b i).pin i pend + ∑ q, (β q).count i + 1 = x.refcnt) :
    Refs ((c.setBuf i x).took p ROOTDEV b i) pend (update β p ((β p).get i b)) := by
  refine ⟨h.lru, fun j q => ?_, fun j q => ?_, fun j => ?_⟩
  · rw [locks_update fun j => Bufs.locks_get ht, ← h.lock]
    rw [buf_took, lock_setBuf _ hlock]
  · by_cases hq : q = p
    · subst hq
      simp [took, Bufs.count_get ht, List.count_cons, h.refs]
    · simp [took, hq, h.refs]
  · have hsum := sum_count_update β p ((β p).get i b) j
    rw [Bufs.count_get ht] at hsum
    by_cases hj : j = i
    · subst hj
      rw [if_pos rfl] at hsum
      rw [buf_took, buf_setBuf_self]
      omega
    · have hold : (c.buf j).refcnt = _ := h.refcnt j
      rw [if_neg (Ne.symm hj)] at hsum
      rw [pin_congr (c := c) (by simp [hj]) (by simp [hj]), buf_took, buf_setBuf_of_ne _ _ _ hj]
      exact hold.trans (by omega)

theorem bget (ht : (β p).transit = .none)
    (hpend : c.lookup ROOTDEV b = none → b ∉ pend) (hexec : c.bget p ROOTDEV b = .ok i c') :
    Refs c' pend (update β p ((β p).get i b)) := by
  rw [Cache.bget] at hexec
  split at hexec
  · cases hexec
    refine h.take ht rfl ?_
    have hlocks := locks_update (β := β) (p := p) fun j => Bufs.locks_get (i := i) (b := b) (j := j) ht
    have hle := count_le (β := update β p ((β p).get i b)) (i := i) fun q q' hq hq' =>
      h.lock_unique ((hlocks q i).1 hq) ((hlocks q' i).1 hq')
    have hsum := sum_count_update β p ((β p).get i b) i
    have hpin := pin_le c i pend
    have hold := h.refcnt i
    rw [Bufs.count_get ht, if_pos rfl] at hsum
    rw [pin_congr (c := c) (by simp) (by simp), Buf.refcnt_setRefcnt, inc_eq (P := P) (by omega)]
    omega
  · rename_i hnone
    split at hexec
    · rename_i j hj
      cases hexec
      have hfree := List.find?_some hj
      have hold := h.refcnt i
      rw [decide_eq_true_eq] at hfree
      refine h.take ht rfl ?_
      rw [pin, if_neg (by simp [Holds, hpend hnone]), Buf.refcnt_recycle]
      omega
    · cases hexec

theorem fill {x : Held} (ht : (β p).transit = .locked i b)
    (hn : (β p).held i = none) : Refs (c.fill i) pend (update β p ((β p).hold i x)) := by
  refine h.congr ?_ ?_ (fun j => ?_) (fun _ => Bufs.locks_hold ht) fun _ => Bufs.count_hold ht hn
  all_goals rw [Cache.fill]; split <;> simp

theorem store {x : Held} {d : Block} (hs : ((β p).held i).isSome) :
    Refs (c.store i d) pend (update β p ((β p).set i x)) :=
  h.congr rfl rfl (fun j => by simp [Cache.store]) (fun _ => Bufs.locks_set hs) fun _ =>
    Bufs.count_set hs

theorem bwrite {x : Held} (hs : ((β p).held i).isSome)
    (hexec : c.bwrite p i = .ok () c') : Refs c' pend (update β p ((β p).set i x)) := by
  rw [Cache.bwrite] at hexec
  split at hexec
  · cases hexec
    exact h.congr rfl rfl (fun _ => ⟨rfl, rfl, rfl, rfl⟩) (fun _ => Bufs.locks_set hs) fun _ =>
      Bufs.count_set hs
  · cases hexec

/-- A step on the sleep lock of buffer `i`. -/
theorem relock {l : Option P} {r : Bufs} (hcount : ∀ j, r.count j = (β p).count j)
    (hp : ∀ j, r.Locks j ↔ if j = i then l = some p else (β p).Locks j)
    (hrest : ∀ q, q ≠ p → (l = some q ↔ (c.buf i).lock = some q)) :
    Refs (c.setBuf i ((c.buf i).setLock l)) pend (update β p r) := by
  refine ⟨h.lru, fun j q => ?_, fun j q => ?_, fun j => ?_⟩
  · by_cases hq : q = p
    · subst hq
      by_cases hj : j = i
      · simp [hj, hp]
      · simp [hj, hp, h.lock]
    · rw [update_of_ne hq, ← h.lock]
      by_cases hj : j = i
      · simp [hj, hrest q hq]
      · rw [buf_setBuf_of_ne _ _ _ hj]
  · rw [refs_setBuf, h.refs]
    exact (apply_update_eq (f := fun r : Bufs => r.count j) (hcount j) q).symm
  · have hsum := sum_count_update β p r j
    have hold := h.refcnt j
    rw [hcount] at hsum
    rw [refcnt_setBuf _ (by simp), pin_congr (c := c) (by simp) (by simp)]
    omega

theorem acquiresleep (ht : (β p).transit = .got i b) (hexec : c.acquiresleep p i = .ok () c') :
    Refs c' pend (update β p ((β p).lock i b)) := by
  rw [Cache.acquiresleep] at hexec
  split at hexec
  · cases hexec
  · rename_i hfree
    cases hexec
    refine h.relock (fun j => Bufs.count_lock ht) (fun j => ?_) fun q hq => by simp [hfree, Ne.symm hq]
    rw [Bufs.locks_lock ht, eq_comm (a := i)]
    split <;> simp [*]

theorem releasesleep (ht : (β p).transit = .none)
    (hs : ((β p).held i).isSome) (hexec : c.releasesleep p i = .ok () c') :
    Refs c' pend (update β p ((β p).drop i b)) := by
  rw [Cache.releasesleep] at hexec
  split at hexec
  · rename_i hlock
    cases hexec
    refine h.relock (fun j => Bufs.count_drop ht hs) (fun j => ?_) fun q hq => by simp [hlock, Ne.symm hq]
    rw [Bufs.locks_drop ht, ne_comm (a := i)]
    split <;> simp [*]
  · cases hexec

theorem bput (ht : (β p).transit = .put i b) : Refs (c.bput p i) pend (update β p (β p).put) := by
  have hcount := fun j => Bufs.count_put (r := β p) (j := j) ht
  refine ⟨fun j => ?_, fun j q => ?_, fun j q => ?_, fun j => ?_⟩
  · rw [Cache.bput, gave, lru_setBuf]
    dsimp only
    split
    · by_cases hj : j = i
      · rw [hj]
        exact List.mem_cons_self
      · exact List.mem_cons_of_mem _ ((List.mem_erase_of_ne hj).2 (h.lru j))
    · exact h.lru j
  · rw [locks_update fun j => Bufs.locks_put ht, ← h.lock]
    simp [Cache.bput]
  · rw [Cache.bput, gave, refs_setBuf]
    by_cases hq : q = p
    · subst hq
      have hold := h.refs j q
      have hj := hcount j
      simp only [update_self]
      by_cases hij : i = j
      · subst hij
        rw [if_pos rfl] at hj
        rw [List.count_erase_self]
        omega
      · rw [if_neg hij] at hj
        rw [List.count_erase_of_ne (Ne.symm hij)]
        omega
    · simp [hq, h.refs]
  · have hsum := sum_count_update β p (β p).put j
    have hj := hcount j
    have hold := h.refcnt j
    have hlt := h.refcnt_lt j
    have hpin : (c.bput p i).pin j pend = c.pin j pend :=
      pin_congr (by simp [Cache.bput]) (by simp [Cache.bput])
    rw [hpin]
    by_cases hij : i = j
    · subst hij
      rw [if_pos rfl] at hj
      have hle := le_sum (fun r : Bufs => r.count i) β p
      have hdec := dec_eq (n := (c.buf i).refcnt) (by omega) hlt
      rw [Cache.bput, buf_gave, buf_setBuf_self, Buf.refcnt_setRefcnt]
      omega
    · rw [if_neg hij] at hj
      rw [Cache.bput, buf_gave, buf_setBuf_of_ne _ _ _ (Ne.symm hij)]
      exact hold.trans (by omega)

end

section Pending

variable (hb : b ∉ pend) (hs : (c.buf i).dev = ROOTDEV) (hblock : (c.buf i).blockno = b)
  (huniq : ∀ j, (c.buf j).dev = ROOTDEV → (c.buf j).blockno = b → j = i)
include hb hs hblock huniq

omit [Procs P] in
/-- The buffer of a block that becomes pending is pinned, and no other. -/
theorem pin_insert {l : List Nat} (hl : ∀ x, x ∈ l ↔ x = b ∨ x ∈ pend) (j : Fin NBUF) :
    c.pin j l = c.pin j pend + if j = i then 1 else 0 := by
  by_cases hj : j = i
  · subst hj
    have hzero : c.pin j pend = 0 := if_neg fun hh => hb (hblock ▸ hh.2)
    have hone : c.pin j l = 1 := if_pos ⟨hs, (hl _).2 (Or.inl hblock)⟩
    rw [hzero, hone, if_pos rfl]
  · have hiff : c.Holds j l ↔ c.Holds j pend := by
      simp only [Holds, hl]
      exact ⟨fun hh => ⟨hh.1, hh.2.resolve_left fun heq => hj (huniq j hh.1 heq)⟩, fun hh => ⟨hh.1, Or.inr hh.2⟩⟩
    simp only [pin, hiff, if_neg hj, Nat.add_zero]

/-- `log_write` pins a block that becomes pending. -/
theorem bpin (h : Refs c pend β) : Refs (c.bpin i) (pend ++ [b]) β := by
  have hle := count_le fun p q => h.lock_unique (p := p) (q := q) (i := i)
  refine ⟨h.lru, fun j q => ?_, h.refs, fun j => ?_⟩
  · rw [← h.lock]
    simp [Cache.bpin]
  · have hold := h.refcnt j
    rw [pin_congr (c := c) (by simp [Cache.bpin]) (by simp [Cache.bpin]), pin_insert hb hs hblock huniq (by simp [or_comm])]
    by_cases hj : j = i
    · subst hj
      have hzero : c.pin j pend = 0 := if_neg fun hh => hb (hblock ▸ hh.2)
      rw [if_pos rfl, Cache.bpin, buf_setBuf_self, Buf.refcnt_setRefcnt, inc_eq (P := P) (by omega)]
      omega
    · rw [if_neg hj, Cache.bpin, buf_setBuf_of_ne _ _ _ hj]
      exact hold

/-- `install_trans` unpins a block that is no longer pending. -/
theorem bunpin (h : Refs c (b :: pend) β) : Refs (c.bunpin i) pend β := by
  refine ⟨h.lru, fun j q => ?_, h.refs, fun j => ?_⟩
  · rw [← h.lock]
    simp [Cache.bunpin]
  · have hold := h.refcnt j
    have hlt := h.refcnt_lt j
    rw [pin_insert hb hs hblock huniq (by simp)] at hold
    rw [pin_congr (c := c) (by simp [Cache.bunpin]) (by simp [Cache.bunpin])]
    by_cases hj : j = i
    · subst hj
      rw [if_pos rfl] at hold
      rw [Cache.bunpin, buf_setBuf_self, Buf.refcnt_setRefcnt, dec_eq (by omega) hlt]
      omega
    · rw [if_neg hj] at hold
      rw [Cache.bunpin, buf_setBuf_of_ne _ _ _ hj]
      exact hold

end Pending

theorem unused (h : Refs c pend β) (hfree : (c.buf i).refcnt = 0) : (∀ q, (β q).count i = 0) ∧ ¬c.Holds i pend := by
  have hold := h.refcnt i
  refine ⟨fun q => ?_, fun hh => ?_⟩
  · have := le_sum (fun r : Bufs => r.count i) β q
    omega
  · rw [pin, if_pos hh] at hold
    omega

end Refs

end Cache

end Xv6
