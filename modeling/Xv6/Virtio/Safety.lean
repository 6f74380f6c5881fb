import Xv6.Lib.Mutex
import Xv6.Lib.Threads
import Xv6.Virtio.Invariant

/-! The calls of `virtio_disk_rw` and `virtio_disk_intr` keep the invariant of the disk. A thread knows whether
it holds `vdisk_lock` and for what, which buffer it has locked, and which request it waits for. -/

namespace Xv6

open Lib Logic Function Option

namespace Virtio

variable {P B : Type} [DecidableEq P] [DecidableEq B]

/-- What the lock is held for: a request, with the chain that is allocated and not yet submitted, or one of the
stages of the handler. -/
inductive Section where
  | rw (h : Option Chain)
  | looping
  | pending
  | drained
  | acked

/-- What a thread holds. A request is its number, its chain and whether `b->disk` was seen cleared. -/
structure Held (B : Type) where
  inside : Option Section
  buf : Option B
  req : Option (Nat × Chain × Bool)

/-- A thread between two calls. -/
def Held.nothing : Held B := ⟨none, none, none⟩

namespace Held

def setInside (ρ : Held B) (x : Option Section) : Held B := { ρ with inside := x }
def setBuf (ρ : Held B) (b : Option B) : Held B := { ρ with buf := b }
def setReq (ρ : Held B) (x : Option (Nat × Chain × Bool)) : Held B := { ρ with req := x }

/-- `b->disk` was read. -/
def read (ρ : Held B) (busy : Bool) : Held B :=
  if busy then ρ else ρ.setReq (ρ.req.map fun x => (x.1, x.2.1, true))

end Held

/-- After the test of the handler's loop. -/
def Section.tested (more : Bool) : Section := if more then .pending else .drained

def Section.phase : Option Section → Phase
  | some .looping | some .pending => .looping
  | some .drained => .drained
  | some .acked => .acked
  | _ => .idle

def Section.hand : Option Section → Option Chain
  | some (.rw h) => h
  | _ => none

/-- The promises of the code. -/
def requests : Logic (DiskSig B) (Held B) where
  pre
    | ρ, .acquire _ | ρ, .woken => ρ.inside = none
    | ρ, .release intr => ρ.inside = some (if intr then .acked else .rw none)
    | ρ, .alloc3 | ρ, .sleep _ => ρ.inside = some (.rw none)
    | ρ, .submit b _ _ c => ρ.inside = some (.rw (some c)) ∧ ρ.buf = some b ∧ ρ.req = none
    | ρ, .busy b => ρ.inside = some (.rw none) ∧ ρ.buf = some b ∧ ρ.req.isSome
    | ρ, .retire b c => ρ.inside = some (.rw none) ∧ ρ.buf = some b ∧ ∃ n, ρ.req = some (n, c, true)
    | ρ, .more => ρ.inside = some .looping
    | ρ, .complete => ρ.inside = some .pending
    | ρ, .status | ρ, .ack _ => ρ.inside = some .drained
    | ρ, .acquiresleep _ => ρ.buf = none
    | ρ, .releasesleep b => ρ.buf = some b ∧ ρ.req = none
    | _, _ => True
  post
    | ρ, .acquire intr, _, ρ' => ρ' = ρ.setInside (some (if intr then .looping else .rw none))
    | ρ, .release _, _, ρ' | ρ, .sleep _, _, ρ' => ρ' = ρ.setInside none
    | ρ, .woken, _, ρ' => ρ' = ρ.setInside (some (.rw none))
    | ρ, .alloc3, r, ρ' => r = none ∧ ρ' = ρ ∨
        ∃ c : Chain, r = some c.toList ∧ ρ' = ρ.setInside (some (.rw (some c)))
    | ρ, .submit _ _ _ c, _, ρ' => ∃ n, ρ' = (ρ.setInside (some (.rw none))).setReq (some (n, c, false))
    | ρ, .busy _, r, ρ' => ρ' = ρ.read r
    | ρ, .retire _ _, _, ρ' => ρ' = ρ.setReq none
    | ρ, .more, r, ρ' => ρ' = ρ.setInside (some (Section.tested r))
    | ρ, .complete, _, ρ' => ρ' = ρ.setInside (some .looping)
    | ρ, .ack _, _, ρ' => ρ' = ρ.setInside (some .acked)
    | ρ, .acquiresleep b, _, ρ' => ρ' = ρ.setBuf (some b)
    | ρ, .releasesleep _, _, ρ' => ρ' = ρ.setBuf none
    | ρ, _, _, ρ' => ρ' = ρ

variable {h : Option Chain}

namespace Disk

/-- What the holder of the lock knows. -/
structure At (s : Disk P B) (x : Option Section) : Prop where
  phase : s.phase = Section.phase x
  chains : s.Chains (Section.hand x)
  pending : x = some .pending → s.cleared.length < s.finished.length

/-- The request that a thread waits for is one of its own, and every live request is waited for. -/
structure Waits (s : Disk P B) (ρ : P → Held B) : Prop where
  req : ∀ p n c d, (ρ p).req = some (n, c, d) →
    ∃ b, (ρ p).buf = some b ∧ s.Live n ⟨b, c⟩ ∧ (d = true → n ∈ s.cleared)
  owner : ∀ n r, s.Live n r → ∃ p c d, (ρ p).req = some (n, c, d)

structure Inv (s : Disk P B) (ρ : P → Held B) : Prop where
  lock : ∀ p, s.lock = some p ↔ (ρ p).inside.isSome
  held : s.At (s.lock.bind fun p => (ρ p).inside)
  sleeplock : ∀ p b, s.sleeplock b = some p ↔ (ρ p).buf = some b
  waits : s.Waits ρ
  rings : s.Rings

section Steps

variable {s s' : Disk P B} {ρ : P → Held B} {p : P}

namespace Inv

omit [DecidableEq P] [DecidableEq B]

theorem heldBy (hinv : Inv s ρ) {x : Section} (hx : (ρ p).inside = some x) : s.At (some x) := by
  have hlock : s.lock = some p := by
    rw [hinv.lock, hx]
    rfl
  have hat := hinv.held
  rw [hlock, bind_some, hx] at hat
  exact hat

theorem heldByNone (hinv : Inv s ρ) (hfree : s.lock = none) : s.At none := by
  have hat := hinv.held
  rwa [hfree] at hat

end Inv

omit [DecidableEq P] [DecidableEq B] in
theorem Waits.congr (hw : s.Waits ρ) {ρ' : P → Held B} (hreqs : s'.reqs = s.reqs) (hret : s'.returned = s.returned)
    (hclr : s.cleared ⊆ s'.cleared) (hreq : ∀ q, (ρ' q).req = (ρ q).req) (hbuf : ∀ q, (ρ' q).buf = (ρ q).buf) :
    s'.Waits ρ' := by
  have hlive : ∀ n r, s'.Live n r ↔ s.Live n r := fun n r => by
    unfold Live
    rw [hreqs, hret]
  refine ⟨fun q n c d hq => ?_, fun n r hn => ?_⟩
  · rw [hreq] at hq
    obtain ⟨b, hb, hn, hd⟩ := hw.req q n c d hq
    exact ⟨b, by rw [hbuf, hb], (hlive n _).2 hn, fun h => hclr (hd h)⟩
  · obtain ⟨q, c, d, hq⟩ := hw.owner n r ((hlive n r).1 hn)
    exact ⟨q, c, d, by rw [hreq, hq]⟩

variable {ρp : Held B}

namespace Inv

omit [DecidableEq B]

/-- The lock is taken, given up or held on for something else. -/
theorem change (hinv : Inv s ρ) {x : Option Section} (hwas : s.lock = none ∨ (ρ p).inside.isSome)
    (hlock : s'.lock = if x.isSome then some p else none) (hat : s'.At x) (hrings : s'.Rings)
    (hsleep : s'.sleeplock = s.sleeplock := by rfl) (hreqs : s'.reqs = s.reqs := by rfl)
    (hret : s'.returned = s.returned := by rfl) (hclr : s.cleared ⊆ s'.cleared := by exact List.Subset.refl _) :
    Inv s' (update ρ p ((ρ p).setInside x)) := by
  have hmutex : Mutex s.lock (Held.inside ∘ ρ) := hinv.lock
  have hinside : Held.inside ∘ update ρ p ((ρ p).setInside x) = update (Held.inside ∘ ρ) p x := comp_update ..
  have hreq : ∀ q, (update ρ p ((ρ p).setInside x) q).req = (ρ q).req := apply_update_eq rfl
  have hbuf : ∀ q, (update ρ p ((ρ p).setInside x) q).buf = (ρ q).buf := apply_update_eq rfl
  refine ⟨?_, ?_, fun q b => ?_, hinv.waits.congr hreqs hret hclr hreq hbuf, hrings⟩
  · show Mutex s'.lock (Held.inside ∘ update ρ p ((ρ p).setInside x))
    rw [hlock, hinside]
    exact hmutex.update hwas x
  · show s'.At (holder s'.lock (Held.inside ∘ update ρ p ((ρ p).setInside x)))
    rw [hlock, hinside, Mutex.holder_update]
    exact hat
  · rw [hsleep, hbuf]
    exact hinv.sleeplock q b

/-- A step that concerns no thread, or the thread only in what it reads. -/
theorem shared (hinv : Inv s ρ) (hat : ∀ x, s.At x → s'.At x) (hrings : s'.Rings) (hlock : s'.lock = s.lock := by rfl)
    (hsleep : s'.sleeplock = s.sleeplock := by rfl) (hreqs : s'.reqs = s.reqs := by rfl)
    (hret : s'.returned = s.returned := by rfl) (hclr : s'.cleared = s.cleared := by rfl) :
    Inv s' (update ρ p (ρ p)) := by
  rw [update_eq_self]
  refine ⟨fun q => ?_, ?_, fun q b => ?_, hinv.waits.congr hreqs hret (by rw [hclr]; exact List.Subset.refl _)
    (fun _ => rfl) fun _ => rfl, hrings⟩
  · rw [hlock]
    exact hinv.lock q
  · rw [hlock]
    exact hat _ hinv.held
  · rw [hsleep]
    exact hinv.sleeplock q b

/-- A thread changes what it has of buffers and requests. -/
theorem own (hinv : Inv s ρ) (hsec : ρp.inside.isSome = (ρ p).inside.isSome)
    (hlock : s'.lock = s.lock) (hat : s'.At (s.lock.bind fun q => (update ρ p ρp q).inside))
    (hsleep : ∀ q b, s'.sleeplock b = some q ↔ (update ρ p ρp q).buf = some b)
    (hwaits : s'.Waits (update ρ p ρp)) (hrings : s'.Rings) : Inv s' (update ρ p ρp) := by
  refine ⟨fun q => ?_, by rw [hlock]; exact hat, hsleep, hwaits, hrings⟩
  rw [hlock, hinv.lock, apply_update_eq (f := fun x : Held B => x.inside.isSome) hsec]

end Inv

section

omit [DecidableEq P] [DecidableEq B]

theorem At.congr {x : Option Section} (hat : s.At x) (hphase : s'.phase = s.phase)
    (hchains : ∀ h, s.Chains h → s'.Chains h) (hclr : s'.cleared = s.cleared)
    (hfin : s.finished.length ≤ s'.finished.length) : s'.At x := by
  refine ⟨by rw [hphase]; exact hat.phase, hchains _ hat.chains, fun hx => ?_⟩
  rw [hclr]
  exact lt_of_lt_of_le (hat.pending hx) hfin

/-- Locks, sleepers and registers are no part of a chain. -/
theorem Chains.registers (hc : s.Chains h) {lock : Option P} {phase : Phase}
    {sleeplock : B → Option P} {asleep : P → Option (Chan B)} {isr due : Bool} {lastAvail : BitVec 16} {taken : Nat}
    {accepted : List (Nat × Nat)} : ({ s with
      lock := lock, phase := phase, sleeplock := sleeplock, asleep := asleep, isr := isr, due := due
      lastAvail := lastAvail, taken := taken, accepted := accepted } : Disk P B).Chains h :=
  { hc with linked := fun n r hn => (hc.linked n r hn).congr fun _ _ => rfl }

theorem Rings.registers (hr : s.Rings) {lock : Option P} {phase : Phase} {sleeplock : B → Option P}
    {asleep : P → Option (Chan B)} {isr due : Bool} : ({ s with
      lock := lock, phase := phase, sleeplock := sleeplock, asleep := asleep, isr := isr, due := due } :
      Disk P B).Rings := { hr with }

theorem Waits.not_busy (hw : s.Waits ρ) (hsleep : ∀ p b, s.sleeplock b = some p ↔ (ρ p).buf = some b) {b : B}
    (hbuf : (ρ p).buf = some b) (hreq : (ρ p).req = none) (n : Nat) (r : Request B) (hn : s.Live n r) : r.buf ≠ b := by
  intro heq
  obtain ⟨q, c, d, hq⟩ := hw.owner n r hn
  obtain ⟨b', hb', hn', -⟩ := hw.req q n c d hq
  have hr : some r = some ⟨b', c⟩ := hn.1.symm.trans hn'.1
  cases hr
  have heq' : b' = b := heq
  have hqp : some q = some p := by
    rw [← (hsleep q b').2 hb', heq', (hsleep p b).2 hbuf]
  rw [Option.some.inj hqp, hreq] at hq
  cases hq

end

omit [DecidableEq B] in
/-- One thread changes what it waits for. -/
theorem Waits.change (hw : s.Waits ρ) (hclr : s.cleared ⊆ s'.cleared)
    (hreq : ∀ n c d, ρp.req = some (n, c, d) → ∃ b, ρp.buf = some b ∧ s'.Live n ⟨b, c⟩ ∧ (d = true → n ∈ s'.cleared))
    (hlive : ∀ q, q ≠ p → ∀ n b c, (ρ q).buf = some b → s.Live n ⟨b, c⟩ → s'.Live n ⟨b, c⟩)
    (howner : ∀ n r, s'.Live n r → (∃ c d, ρp.req = some (n, c, d)) ∨ s.Live n r ∧ ∀ c d, (ρ p).req ≠ some (n, c, d)) :
    s'.Waits (update ρ p ρp) := by
  refine ⟨fun q n c d hn => ?_, fun n r hn => ?_⟩
  · by_cases hq : q = p
    · rw [hq, update_self] at hn ⊢
      exact hreq n c d hn
    · rw [update_of_ne hq] at hn ⊢
      obtain ⟨b, hb, hold, hd⟩ := hw.req q n c d hn
      exact ⟨b, hb, hlive q hq n b c hb hold, fun h => hclr (hd h)⟩
  · rcases howner n r hn with ⟨c, d, hnew⟩ | ⟨hold, hnone⟩
    · exact ⟨p, c, d, by rw [update_self, hnew]⟩
    · obtain ⟨q, c, d, hq⟩ := hw.owner n r hold
      have hne : q ≠ p := by
        rintro rfl
        exact hnone c d hq
      exact ⟨q, c, d, by rw [update_of_ne hne, hq]⟩

/-- The request of `p` is submitted. -/
theorem Waits.submit (hw : s.Waits ρ) (hr : s.Rings) {b : B} {c : Chain} (hreq : (ρ p).req = none)
    (sector : Nat) (write : Bool) (hbuf' : ρp.buf = some b) (hreq' : ρp.req = some (s.reqs.length, c, false)) :
    (s.submitted b sector write c).Waits (update ρ p ρp) := by
  refine hw.change (List.Subset.refl _) ?_ (fun q _ n b' c' _ hn => (live_submitted hr sector write).2 (Or.inl hn)) ?_
  · intro n c' d hn
    rw [hreq'] at hn
    cases hn
    exact ⟨b, hbuf', (live_submitted hr sector write).2 (Or.inr ⟨rfl, rfl⟩), nofun⟩
  · intro n r hn
    rcases (live_submitted hr sector write).1 hn with hold | ⟨rfl, rfl⟩
    · exact Or.inr ⟨hold, by rw [hreq]; exact nofun⟩
    · exact Or.inl ⟨c, false, hreq'⟩

omit [DecidableEq B] in
/-- The thread has read `b->disk`. -/
theorem Waits.read (hw : s.Waits ρ) (hbuf : ρp.buf = (ρ p).buf)
    (hreq : ∀ n c d, ρp.req = some (n, c, d) ↔ d = true ∧ ∃ d', (ρ p).req = some (n, c, d'))
    (hclr : ∀ n c d, (ρ p).req = some (n, c, d) → n ∈ s.cleared) : s.Waits (update ρ p ρp) := by
  refine hw.change (List.Subset.refl _) ?_ (fun _ _ _ _ _ _ hn => hn) ?_
  · intro n c d hn
    obtain ⟨-, d', hd'⟩ := (hreq n c d).1 hn
    obtain ⟨b, hb, hn, -⟩ := hw.req p n c d' hd'
    exact ⟨b, hbuf.trans hb, hn, fun _ => hclr n c d' hd'⟩
  · intro n r hn
    by_cases hmine : ∃ c d, (ρ p).req = some (n, c, d)
    · obtain ⟨c, d, hd⟩ := hmine
      exact Or.inl ⟨c, true, (hreq n c true).2 ⟨rfl, d, hd⟩⟩
    · exact Or.inr ⟨hn, fun c d hd => hmine ⟨c, d, hd⟩⟩

/-- The chain of the request of `p` is freed. -/
theorem Waits.retire (hw : s.Waits ρ) (hc : s.Chains none) {n : Nat} {b : B} {c : Chain} {d : Bool}
    (hsleep : ∀ p b, s.sleeplock b = some p ↔ (ρ p).buf = some b)
    (hbuf : (ρ p).buf = some b) (hreq : (ρ p).req = some (n, c, d)) (hlive : s.Live n ⟨b, c⟩)
    (hreq' : ρp.req = none) : (s.retired b c).Waits (update ρ p ρp) := by
  have hiff : ∀ {m : Nat} {q : Request B}, (s.retired b c).Live m q ↔ s.Live m q ∧ m ≠ n :=
    live_retired (hc.current n _ hlive).1
  refine hw.change (List.Subset.refl _) (by rw [hreq']; exact nofun) ?_ ?_
  · intro q hqp m b' c' hb' hm
    refine hiff.2 ⟨hm, ?_⟩
    -- another thread's request is for another buffer
    rintro rfl
    have hr : some (⟨b', c'⟩ : Request B) = some ⟨b, c⟩ := hm.1.symm.trans hlive.1
    cases hr
    have hqp' : some q = some p := by
      rw [← (hsleep q b).2 hb', (hsleep p b).2 hbuf]
    exact hqp (Option.some.inj hqp')
  · intro m r hm
    refine Or.inr ⟨(hiff.1 hm).1, fun c' d' hq => ?_⟩
    rw [hreq] at hq
    cases hq
    exact (hiff.1 hm).2 rfl

omit [DecidableEq B] in
theorem held_update {x : Section} (hinv : Inv s ρ) (hx : (ρ p).inside.isSome) (hρp : ρp.inside = some x)
    (hat : s'.At (some x)) : s'.At (s.lock.bind fun q => (update ρ p ρp q).inside) := by
  rw [(hinv.lock p).2 hx, bind_some, update_self, hρp]
  exact hat

omit [DecidableEq B] in
theorem inside_update (hρp : ρp.inside = (ρ p).inside) :
    (fun q => (update ρ p ρp q).inside) = fun q => (ρ q).inside := funext (apply_update_eq hρp)

omit [DecidableEq P] [DecidableEq B] in
theorem read_req (n : Nat) (c : Chain) (d : Bool) :
    (ρp.read false).req = some (n, c, d) ↔ d = true ∧ ∃ d', ρp.req = some (n, c, d') := by
  show ρp.req.map (fun x => (x.1, x.2.1, true)) = _ ↔ _
  cases hreq : ρp.req with
  | none => simp
  | some x =>
    obtain ⟨m, c', d'⟩ := x
    simp only [map_some, Option.some.injEq, Prod.mk.injEq]
    constructor
    · rintro ⟨rfl, rfl, rfl⟩
      exact ⟨rfl, d', rfl, rfl, rfl⟩
    · rintro ⟨rfl, d'', rfl, rfl, -⟩
      exact ⟨rfl, rfl, rfl⟩

omit [DecidableEq B] in
theorem sleeplock_update (hinv : Inv s ρ) {ρp : Held B} (hbuf : ρp.buf = (ρ p).buf) (q : P) (b : B) :
    s.sleeplock b = some q ↔ (update ρ p ρp q).buf = some b := by
  rw [hinv.sleeplock, apply_update_eq hbuf]

omit [DecidableEq B] in
/-- A thread that waits for no request locks or unlocks a buffer. -/
theorem Waits.setBuf (hw : s.Waits ρ) (hreq : (ρ p).req = none) (b : Option B) :
    s.Waits (update ρ p ((ρ p).setBuf b)) :=
  hw.change (List.Subset.refl _) (fun _ _ _ hn => absurd (hreq.symm.trans hn) nofun) (fun _ _ _ _ _ _ hn => hn)
    fun _ _ hn => Or.inr ⟨hn, by rw [hreq]; exact nofun⟩

/-- `p` locks `b`, or unlocks it. -/
theorem sleeplock_toggle (hinv : Inv s ρ) {b : B} (locks : Bool) (hlock : s.sleeplock b = none ∨ s.sleeplock b = some p)
    (hbuf : (ρ p).buf = none ∨ (ρ p).buf = some b) (q : P) (b' : B) :
    update s.sleeplock b (if locks then some p else none) b' = some q ↔
      (update ρ p ((ρ p).setBuf (if locks then some b else none)) q).buf = some b' := by
  have hq' := hinv.sleeplock q b'
  by_cases hb : b' = b
  · by_cases hq : q = p
    · rw [hb, hq, update_self, update_self]
      cases locks
      · exact iff_of_false nofun nofun
      · exact iff_of_true rfl rfl
    · rw [hb, update_self, update_of_ne hq, ← hinv.sleeplock]
      have hne : some p ≠ some q := fun heq => hq (Option.some.inj heq).symm
      rcases hlock with hlock | hlock <;> cases locks <;> simp [hlock, hne]
  · rw [update_of_ne hb, hq']
    by_cases hq : q = p
    · have hne : some b ≠ some b' := fun heq => hb (Option.some.inj heq).symm
      rw [hq, update_self]
      rcases hbuf with hbuf | hbuf <;> cases locks <;> simp [hbuf, hne, Held.setBuf]
    · rw [update_of_ne hq]

end Steps

theorem sound : (machine : Machine (DiskSig B) P (Disk P B)).Sound requests (fun _ _ _ => True) Inv := by
  intro s ρ p o r s' hinv hpre _ hexec
  have hheld : ∀ {x : Section}, (ρ p).inside = some x → (ρ p).inside.isSome ∧ s.lock = some p ∧ s.At (some x) := by
    intro x hx
    have hsome : (ρ p).inside.isSome := by
      rw [hx]
      rfl
    exact ⟨hsome, (hinv.lock p).2 hsome, hinv.heldBy hx⟩
  cases o with
  | acquire intr =>
    simp only [machine, exec] at hexec
    split at hexec
    · cases hexec
    · rename_i hfree
      cases hexec
      have hat := hinv.heldByNone hfree
      refine ⟨_, rfl, hinv.change (Or.inl hfree) rfl ?_ hinv.rings.registers⟩
      cases intr
      · exact ⟨hat.phase, hat.chains.registers, nofun⟩
      · exact ⟨rfl, hat.chains.registers, nofun⟩
  | release intr =>
    cases hexec
    obtain ⟨hsome, -, hat⟩ := hheld hpre
    refine ⟨_, rfl, hinv.change (Or.inr hsome) rfl ?_ hinv.rings.registers⟩
    cases intr
    · exact ⟨hat.phase, hat.chains.registers, nofun⟩
    · exact ⟨rfl, hat.chains.registers, nofun⟩
  | alloc3 =>
    obtain ⟨hsome, hlock, hat⟩ := hheld hpre
    have halloc : s.alloc3Desc = .ok r s' := hexec
    rcases s.alloc3Desc_spec with ⟨c, hnodup, hfree, heq⟩ | ⟨t, heq, hfree, hfrees⟩
    · rw [heq] at halloc
      cases halloc
      refine ⟨_, Or.inr ⟨c, rfl, rfl⟩, hinv.change (Or.inr hsome) hlock ?_ ?_⟩
      · exact ⟨hat.phase, hat.chains.alloc hnodup hfree, nofun⟩
      · exact { hinv.rings with }
    · rw [heq] at halloc
      cases halloc
      have hρ : ρ p = (ρ p).setInside (some (.rw none)) := by
        rw [← (show (ρ p).inside = some (.rw none) from hpre)]
        rfl
      refine ⟨ρ p, Or.inl ⟨rfl, rfl⟩, ?_⟩
      rw [hρ, hfrees.rest]
      refine hinv.change (Or.inr hsome) hlock ?_ ?_
      · rw [← hfrees.rest]
        refine ⟨?_, hfrees.chains hfree hat.chains, nofun⟩
        rw [hfrees.rest]
        exact hat.phase
      · rw [← hfrees.rest]
        exact hfrees.rings hinv.rings
  | submit b sector write c =>
    cases hexec
    obtain ⟨hsec, hbuf, hreq⟩ := hpre
    obtain ⟨hsome, -, hat⟩ := hheld hsec
    have hidle := hinv.waits.not_busy hinv.sleeplock hbuf hreq
    refine ⟨_, ⟨s.reqs.length, rfl⟩, hinv.own ?_ rfl ?_ (sleeplock_update hinv rfl) ?_ ?_⟩
    · rw [hsec]
      rfl
    · refine held_update hinv hsome rfl ⟨hat.phase, ?_, nofun⟩
      exact hat.chains.submit hinv.rings hidle sector write
    · exact hinv.waits.submit hinv.rings hreq sector write hbuf rfl
    · exact hinv.rings.submit hat.chains sector write
  | busy b =>
    obtain ⟨hsec, hbuf, hreq⟩ := hpre
    obtain ⟨hsome, -, hat⟩ := hheld hsec
    cases hbusy : s.busy b with
    | true =>
      have hexec' : Outcome.ok (s.busy b) s = .ok r s' := hexec
      rw [hbusy] at hexec'
      cases hexec'
      exact ⟨_, rfl, hinv.shared (fun _ hat => hat) hinv.rings⟩
    | false =>
      have hexec' : Outcome.ok (s.busy b) s = .ok r s' := hexec
      rw [hbusy] at hexec'
      cases hexec'
      have hclr : ∀ n c d, (ρ p).req = some (n, c, d) → n ∈ s.cleared := by
        intro n c d hn
        obtain ⟨b', hb', hlive, -⟩ := hinv.waits.req p n c d hn
        rw [hbuf] at hb'
        cases hb'
        by_contra hnot
        rw [((hat.chains.current n _ hlive).2.2 hnot : s.busy b = true)] at hbusy
        cases hbusy
      refine ⟨_, rfl, hinv.own rfl rfl ?_ (sleeplock_update hinv rfl) ?_ hinv.rings⟩
      · exact held_update hinv hsome hsec hat
      · exact hinv.waits.read rfl (fun n c d => read_req n c d) hclr
  | retire b c =>
    obtain ⟨hsec, hbuf, n, hreq⟩ := hpre
    obtain ⟨hsome, -, hat⟩ := hheld hsec
    obtain ⟨b', hb', hlive, hclr⟩ := hinv.waits.req p n c true hreq
    rw [hbuf] at hb'
    cases hb'
    have hexec' : s.retire b c = .ok r s' := hexec
    rw [retire_eq hat.chains hlive] at hexec'
    cases hexec'
    refine ⟨_, rfl, hinv.own rfl rfl ?_ (sleeplock_update hinv rfl) ?_ ?_⟩
    · exact held_update hinv hsome hsec ⟨hat.phase, hat.chains.retire hlive, nofun⟩
    · exact hinv.waits.retire hat.chains hinv.sleeplock hbuf hreq hlive rfl
    · refine hinv.rings.retire ?_
      rw [(hat.chains.current n _ hlive).1]
      exact hclr rfl
  | sleep chan =>
    cases hexec
    obtain ⟨hsome, -, hat⟩ := hheld hpre
    refine ⟨_, rfl, hinv.change (Or.inr hsome) rfl ?_ hinv.rings.registers⟩
    exact ⟨hat.phase, hat.chains.registers, nofun⟩
  | woken =>
    simp only [machine, exec] at hexec
    split at hexec
    · rename_i hfree
      cases hexec
      have hat := hinv.heldByNone hfree
      refine ⟨_, rfl, hinv.change (Or.inl hfree) rfl ?_ hinv.rings.registers⟩
      exact ⟨hat.phase, hat.chains.registers, nofun⟩
    · cases hexec
  | more =>
    obtain ⟨hsome, hlock, hat⟩ := hheld hpre
    simp only [machine, exec] at hexec
    split at hexec
    · rename_i hmore
      cases hexec
      refine ⟨_, rfl, hinv.change (Or.inr hsome) hlock ?_ hinv.rings⟩
      exact ⟨hat.phase, hat.chains, fun _ => (more_iff hat.chains hinv.rings).1 hmore⟩
    · cases hexec
      refine ⟨_, rfl, hinv.change (Or.inr hsome) hlock ?_ hinv.rings.registers⟩
      exact ⟨rfl, hat.chains.registers, nofun⟩
  | complete =>
    obtain ⟨hsome, hlock, hat⟩ := hheld hpre
    obtain ⟨n, q, hn, hlive, heq⟩ := complete_eq hat.chains hinv.rings (hat.pending rfl)
    have hexec' : s.complete = .ok r s' := hexec
    rw [heq] at hexec'
    cases hexec'
    refine ⟨_, rfl, hinv.change (Or.inr hsome) hlock ?_ ?_ rfl rfl rfl (List.subset_append_left ..)⟩
    · exact ⟨hat.phase, hat.chains.complete hlive, nofun⟩
    · exact hinv.rings.complete hn
  | status =>
    cases hexec
    exact ⟨_, rfl, hinv.shared (fun _ hat => hat) hinv.rings⟩
  | ack v =>
    cases hexec
    obtain ⟨hsome, hlock, hat⟩ := hheld hpre
    refine ⟨_, rfl, hinv.change (Or.inr hsome) hlock ?_ hinv.rings.registers⟩
    exact ⟨rfl, hat.chains.registers, nofun⟩
  | acquiresleep b =>
    simp only [machine, exec] at hexec
    split at hexec
    · cases hexec
    · rename_i hfree
      cases hexec
      have hreq : (ρ p).req = none := by
        cases hreq : (ρ p).req with
        | none => rfl
        | some x =>
          obtain ⟨b', hb', -⟩ := hinv.waits.req p x.1 x.2.1 x.2.2 hreq
          cases (show (ρ p).buf = none from hpre).symm.trans hb'
      refine ⟨_, rfl, hinv.own rfl rfl ?_ (sleeplock_toggle hinv true (Or.inl hfree) (Or.inl hpre)) ?_ hinv.rings.registers⟩
      · rw [inside_update (by rfl)]
        exact hinv.held.congr rfl (fun _ hc => hc.registers) rfl (le_refl _)
      · exact { hinv.waits.setBuf hreq (some b) with }
  | releasesleep b =>
    cases hexec
    obtain ⟨hbuf, hreq⟩ := hpre
    refine ⟨_, rfl, hinv.own rfl rfl ?_ (sleeplock_toggle hinv false (Or.inr ((hinv.sleeplock p b).2 hbuf)) (Or.inr hbuf)) ?_ hinv.rings.registers⟩
    · rw [inside_update (by rfl)]
      exact hinv.held.congr rfl (fun _ hc => hc.registers) rfl (le_refl _)
    · exact { hinv.waits.setBuf hreq none with }
  | take =>
    simp only [machine, exec] at hexec
    split at hexec
    · cases hexec
    · rename_i hne
      cases hexec
      refine ⟨_, rfl, hinv.shared (fun x hat => ?_) (hinv.rings.take hne)⟩
      exact hat.congr rfl (fun _ hc => hc.registers) rfl (le_refl _)
  | finish k =>
    simp only [machine, exec] at hexec
    split at hexec
    · cases hexec
    · rename_i n head hk
      cases hexec
      have heq := ended_eq hinv.held.chains hinv.rings hk
      have hrings := hinv.rings.finish hinv.held.chains hk
      have hchains : ∀ h, s.Chains h → (s.ended k n head).Chains h := fun _ hc => hc.finish hinv.rings hk
      rw [heq] at hrings hchains
      refine ⟨ρ p, rfl, ?_⟩
      show Inv (s.ended k n head) _
      rw [heq]
      refine hinv.shared (fun x hat => ?_) hrings
      refine hat.congr rfl hchains rfl ?_
      rw [List.length_append]
      exact Nat.le_add_right ..
  | signal =>
    simp only [machine, exec] at hexec
    split at hexec
    · cases hexec
      refine ⟨_, rfl, hinv.shared (fun x hat => ?_) hinv.rings.registers⟩
      exact hat.congr rfl (fun _ hc => hc.registers) rfl (le_refl _)
    · cases hexec
  | halt => cases hexec

omit [DecidableEq P] [DecidableEq B] in
theorem inv_init : Inv (init : Disk P B) fun _ => .nothing := by
  have hlive : ∀ n r, ¬ (init : Disk P B).Live n r := by
    rintro n r ⟨hsome, -⟩
    cases hsome
  refine ⟨fun p => by simp [init, Held.nothing], ⟨rfl, ?_, nofun⟩, fun p b => by simp [init, Held.nothing], ?_, ?_⟩
  · refine ⟨fun n r hn => absurd hn (hlive n r), fun n r hn => absurd hn (hlive n r),
      fun n _ r _ _ hn => absurd hn (hlive n r), nofun, nofun, nofun, fun i _ => ?_,
      fun n r hn => absurd hn (hlive n r), fun n r hn => absurd hn (hlive n r), fun n r hn => absurd hn (hlive n r)⟩
    refine iff_of_false (by simp [init]) ?_
    rintro (⟨n, r, hn, -⟩ | ⟨_, ⟨⟩, -⟩)
    exact hlive n r hn
  · exact ⟨nofun, fun n r hn => absurd hn (hlive n r)⟩
  · constructor <;> simp [init]

end Disk

/-! ### The code keeps its promises -/

section Code

omit [DecidableEq B]

variable {ρ : Held B}

/-- A process that holds the lock for `virtio_disk_rw` gives it up, sleeps and takes it again. -/
theorem wp_sleep (chan : Chan B) (hsec : ρ.inside = some (.rw none)) :
    requests.wp (sleep chan) (fun _ ρ' => ρ' = ρ) ρ := by
  refine wp_step hsec ?_
  rintro _ _ rfl
  refine ⟨rfl, ?_⟩
  rintro _ _ rfl
  show Held.mk _ _ _ = ρ
  rw [← hsec]
  rfl

theorem wp_allocLoop (fuel : Nat) (hsec : ρ.inside = some (.rw none)) :
    requests.wp (allocLoop fuel) (fun c ρ' => ρ' = ρ.setInside (some (.rw (some c)))) ρ := by
  induction fuel with
  | zero => exact ⟨trivial, nofun⟩
  | succ fuel ih =>
    refine wp_step hsec ?_
    rintro _ _ (⟨rfl, rfl⟩ | ⟨c, rfl, rfl⟩)
    · refine wp_seq (wp_sleep .free hsec) ?_
      rintro _ _ rfl
      exact ih
    · exact rfl

theorem wp_waitLoop (b : B) {n : Nat} {c : Chain} {d : Bool} (fuel : Nat) (hsec : ρ.inside = some (.rw none))
    (hbuf : ρ.buf = some b) (hreq : ρ.req = some (n, c, d)) :
    requests.wp (waitLoop b fuel) (fun _ ρ' => ρ' = ρ.setReq (some (n, c, true))) ρ := by
  induction fuel with
  | zero => exact ⟨trivial, nofun⟩
  | succ fuel ih =>
    refine wp_step ⟨hsec, hbuf, by rw [hreq]; rfl⟩ ?_
    rintro busy _ rfl
    cases busy
    · show ρ.setReq (ρ.req.map _) = _
      rw [hreq]
      rfl
    · refine wp_seq (wp_sleep (.buf b) hsec) ?_
      rintro _ _ rfl
      exact ih

theorem wp_virtioDiskRw (b : B) (blockno : Nat) (write : Bool) (fuel : Nat) (hsec : ρ.inside = none)
    (hbuf : ρ.buf = some b) (hreq : ρ.req = none) :
    requests.wp (virtioDiskRw b blockno write fuel) (fun _ ρ' => ρ' = ρ) ρ := by
  refine wp_step hsec ?_
  rintro _ _ rfl
  refine wp_seq (wp_allocLoop fuel rfl) ?_
  rintro c _ rfl
  refine wp_step ⟨rfl, hbuf, hreq⟩ ?_
  rintro _ _ ⟨n, rfl⟩
  refine wp_seq (wp_waitLoop b fuel rfl hbuf rfl) ?_
  rintro _ _ rfl
  refine wp_step ⟨rfl, hbuf, n, rfl⟩ ?_
  rintro _ _ rfl
  refine ⟨rfl, ?_⟩
  rintro _ _ rfl
  show Held.mk none ρ.buf none = ρ
  rw [← hsec, ← hreq]

theorem wp_intrLoop (fuel : Nat) (hsec : ρ.inside = some .looping) :
    requests.wp (intrLoop fuel) (fun _ ρ' => ρ' = ρ.setInside (some .drained)) ρ := by
  induction fuel with
  | zero => exact ⟨trivial, nofun⟩
  | succ fuel ih =>
    refine wp_step hsec ?_
    rintro more _ rfl
    cases more
    · exact rfl
    · refine wp_step rfl ?_
      rintro _ _ rfl
      have hρ : (ρ.setInside (some .pending)).setInside (some .looping) = ρ := by
        rw [← hsec]
        rfl
      rw [show (ρ.setInside (some (Section.tested true))).setInside (some .looping) = ρ from hρ]
      exact ih

theorem wp_virtioDiskIntr (fuel : Nat) (hsec : ρ.inside = none) :
    requests.wp (virtioDiskIntr fuel) (fun _ ρ' => ρ' = ρ) ρ := by
  refine wp_step hsec ?_
  rintro _ _ rfl
  refine wp_seq (wp_intrLoop fuel rfl) ?_
  rintro _ _ rfl
  refine wp_step rfl ?_
  rintro v _ rfl
  refine wp_step rfl ?_
  rintro _ _ rfl
  refine ⟨rfl, ?_⟩
  rintro _ _ rfl
  show Held.mk none ρ.buf ρ.req = ρ
  rw [← hsec]

theorem wp_run (c : Call B) : requests.wp c.run (fun _ ρ => ρ = .nothing) .nothing := by
  cases c with
  | rw b blockno write fuel =>
    refine wp_step rfl ?_
    rintro _ _ rfl
    refine wp_seq (wp_virtioDiskRw b blockno write fuel rfl rfl rfl) ?_
    rintro _ _ rfl
    exact ⟨⟨rfl, rfl⟩, fun _ _ heq => heq⟩
  | intr fuel => exact wp_virtioDiskIntr fuel rfl
  | take | finish | signal => exact ⟨trivial, fun _ _ heq => heq⟩

theorem wp_runAll (cs : List (Call B)) : requests.wp (runAll cs) (fun _ ρ => ρ = .nothing) .nothing := by
  induction cs with
  | nil => exact rfl
  | cons c cs ih => exact wp_seq (wp_run c) fun _ ρ hρ => hρ ▸ ih

end Code

namespace Disk

theorem inv_of_reach {calls : P → List (Call B)} {c : Conf (DiskSig B) P (Disk P B)}
    (hreach : machine.Reach (fun _ _ _ => True) ⟨init, fun p => runAll (calls p)⟩ c) :
    ∃ ρ, Inv c.st ρ ∧ ∀ p, requests.wp (c.prog p) (fun _ _ => True) (ρ p) :=
  hreach.inv (Q := fun _ => True) sound inv_init fun p =>
    wp_mono (fun _ _ _ => trivial) (wp_runAll (calls p))

section

omit [DecidableEq P] [DecidableEq B]

end

end Disk

end Virtio

end Xv6
