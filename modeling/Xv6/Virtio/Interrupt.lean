import Xv6.Virtio.Safety

/-! Interrupts of the disk. `virtio_disk_intr` empties the ring of used chains and acknowledges the interrupt
after that, so that the interrupt for a chain which the device puts on the ring in between is acknowledged
without being handled. -/

namespace Xv6

open Lib Logic

namespace Virtio

variable {P B : Type} [DecidableEq P] [DecidableEq B]

namespace Disk

/-- The ring of used chains has an element that no handler has looked at: the test of the handler's loop. -/
def Unprocessed (s : Disk P B) : Prop := s.usedIdx.toNat % NUM ≠ s.usedId.toNat % NUM

instance (s : Disk P B) : Decidable s.Unprocessed := inferInstanceAs (Decidable (_ ≠ _))

/-- Between the last test of a handler's loop and its acknowledgement, the device sets the interrupt bit for no
element that came after the test. -/
def Timely (s : Disk P B) (_ : P) (o : DiskOp B) : Prop := o = .signal → s.phase = .drained → ¬ s.Unprocessed

/-- An interrupt is pending for an element that waits, and past the last test of the handler it is one that is
still to come. -/
def Told (s : Disk P B) : Prop :=
  s.cleared.length < s.finished.length → s.due = true ∨ s.isr = true ∧ s.phase ≠ .drained

section Steps

variable {s s' : Disk P B} {ρ : P → Held B} {p : P} {o : DiskOp B} {r : (DiskSig B).Ret o}

omit [DecidableEq P] [DecidableEq B] in
theorem Told.congr (ht : s.Told) (hclr : s.cleared.length ≤ s'.cleared.length) (hfin : s'.finished = s.finished)
    (hdue : s'.due = s.due) (hisr : s'.isr = s.isr) (hphase : s'.phase = .drained → s.phase = .drained) : s'.Told := by
  intro hlt
  rw [hfin] at hlt
  rw [hdue, hisr]
  exact (ht (lt_of_le_of_lt hclr hlt)).imp id fun h => ⟨h.1, fun h' => h.2 (hphase h')⟩

theorem told_step (hinv : Inv s ρ) (hpre : requests.pre (ρ p) o) (hcond : s.Timely p o)
    (hexec : exec p o s = .ok r s') (ht : s.Told) : s'.Told := by
  cases o with
  | acquire intr =>
    simp only [exec] at hexec
    split at hexec
    · cases hexec
    · cases hexec
      refine ht.congr (le_refl _) rfl rfl rfl fun hphase => ?_
      cases intr
      · exact hphase
      · cases hphase
  | release intr =>
    cases hexec
    refine ht.congr (le_refl _) rfl rfl rfl fun hphase => ?_
    cases intr
    · exact hphase
    · cases hphase
  | alloc3 =>
    have halloc : s.alloc3Desc = .ok r s' := hexec
    rcases s.alloc3Desc_spec with ⟨c, -, -, heq⟩ | ⟨t, heq, -, hfrees⟩
    · rw [heq] at halloc
      cases halloc
      exact ht
    · rw [heq] at halloc
      cases halloc
      rw [hfrees.rest]
      exact ht
  | submit | busy | sleep | status | releasesleep =>
    cases hexec
    exact ht
  | retire b c =>
    obtain ⟨hsec, hbuf, n, hreq⟩ := hpre
    obtain ⟨b', hb', hlive, -⟩ := hinv.waits.req p n c true hreq
    rw [hbuf] at hb'
    cases hb'
    have hretire : s.retire b c = .ok r s' := hexec
    rw [retire_eq (hinv.heldBy hsec).chains hlive] at hretire
    cases hretire
    exact ht
  | woken =>
    simp only [exec] at hexec
    split at hexec
    · cases hexec
      exact ht
    · cases hexec
  | more =>
    simp only [exec] at hexec
    split at hexec
    · cases hexec
      exact ht
    · rename_i hnot
      cases hexec
      exact fun hlt => absurd ((more_iff hinv.held.chains hinv.rings).2 hlt) hnot
  | complete =>
    have hat := hinv.heldBy hpre
    obtain ⟨n, q, -, -, heq⟩ := complete_eq hat.chains hinv.rings (hat.pending rfl)
    have hcomplete : s.complete = .ok r s' := hexec
    rw [heq] at hcomplete
    cases hcomplete
    refine ht.congr ?_ rfl rfl rfl id
    show s.cleared.length ≤ (s.cleared ++ [n]).length
    rw [List.length_append]
    exact Nat.le_add_right ..
  | ack v =>
    cases hexec
    intro hlt
    rcases ht hlt with hdue | ⟨-, hphase⟩
    · exact Or.inl hdue
    · exact absurd (hinv.heldBy hpre).phase hphase
  | acquiresleep | take =>
    simp only [exec] at hexec
    split at hexec
    · cases hexec
    · cases hexec
      exact ht
  | finish k =>
    simp only [exec] at hexec
    split at hexec
    · cases hexec
    · cases hexec
      exact fun _ => Or.inl rfl
  | signal =>
    simp only [exec] at hexec
    split at hexec
    · cases hexec
      refine fun hlt => Or.inr ⟨rfl, fun hphase => hcond rfl hphase ?_⟩
      exact (more_iff hinv.held.chains hinv.rings).2 hlt
    · cases hexec
  | halt => cases hexec

end Steps

theorem sound_told : (machine : Machine (DiskSig B) P (Disk P B)).Sound requests Timely
    fun s ρ => Inv s ρ ∧ s.Told := by
  intro s ρ p o r s' hinv hpre hcond hexec
  obtain ⟨ρ', hpost, hinv'⟩ := sound s ρ p o r s' hinv.1 hpre trivial hexec
  exact ⟨ρ', hpost, hinv', told_step hinv.1 hpre hcond hexec hinv.2⟩

/-- **Interrupts, as long as they come in time.** Where the device never sets the interrupt bit for an element
that came after the handler's last test before the handler has acknowledged, an element that waits has its
interrupt, also while no handler runs: the bit is set, or the device is about to set it. -/
theorem interrupt_kept (calls : P → List (Call B)) {c : Conf (DiskSig B) P (Disk P B)}
    (hreach : machine.Reach Timely ⟨init, fun p => runAll (calls p)⟩ c)
    (hwait : c.st.Unprocessed) : c.st.isr = true ∨ c.st.due = true := by
  obtain ⟨ρ, ⟨hinv, htold⟩, -⟩ := hreach.inv (Q := fun _ => True) sound_told
    ⟨inv_init, fun hlt => absurd hlt (lt_irrefl _)⟩ fun p =>
      wp_mono (fun _ _ _ => trivial) (wp_runAll (calls p))
  rcases htold ((more_iff hinv.held.chains hinv.rings).1 hwait) with hdue | ⟨hisr, -⟩
  · exact Or.inr hdue
  · exact Or.inl hisr

/-- The device has finished the request of process 0, and the interrupt is not handled yet. -/
theorem interrupt_kept_one : ∃ c : Conf (DiskSig Unit) (Fin 2) (Disk (Fin 2) Unit),
    (c.st.phase = .idle ∧ c.st.Unprocessed ∧ c.st.due = false) ∧ c.st.isr = true := by
  let calls (p : Fin 2) : List (Call Unit) := if p = 0 then [.rw () 7 true 2] else [.take, .finish 0, .signal]
  obtain ⟨c, hreach, hst⟩ : ∃ c, machine.Reach Timely ⟨init, fun p => runAll (calls p)⟩ c ∧
      c.st.phase = .idle ∧ c.st.Unprocessed ∧ c.st.due = false :=
    Machine.exists_reach (fun s _ _ => decide (s.phase = .idle))
      (fun s _ _ hidle _ hdrained => by rw [of_decide_eq_true hidle] at hdrained; cases hdrained)
      (List.replicate 6 0 ++ List.replicate 3 1) _ _ (by decide)
  rcases interrupt_kept calls hreach hst.2.1 with hisr | hdue
  · exact ⟨c, hst, hisr⟩
  · rw [hst.2.2] at hdue
    cases hdue

/-- Two processes, the device and a handler. -/
def twoRequests (p : Fin 4) : List (Call Bool) :=
  if p = 0 then [.rw false 7 true 2]
  else if p = 1 then [.rw true 9 true 2]
  else if p = 2 then [.take, .take, .finish 0, .signal, .finish 0, .signal]
  else [.intr 2]

/-- Two requests are under way. The device finishes the first one and interrupts, the handler clears it and finds
no more, the device finishes the second one and sets the bit again, and the handler acknowledges: the second
element waits, with no interrupt to come. -/
theorem interrupt_lost : ∃ c, machine.Reach (fun _ _ _ => True) ⟨init, fun p => runAll (twoRequests p)⟩ c ∧
    c.st.phase = .idle ∧ c.st.Unprocessed ∧ c.st.isr = false ∧ c.st.due = false :=
  Machine.exists_reach (fun _ _ _ => true) (fun _ _ _ _ => trivial) (List.replicate 6 0 ++ List.replicate 6 1 ++
    List.replicate 4 2 ++ List.replicate 4 3 ++ List.replicate 2 2 ++ List.replicate 3 3) _ _ (by decide)

end Disk

end Virtio

end Xv6
