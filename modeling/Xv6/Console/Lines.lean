import Xv6.Console.Input
import Xv6.Lib.Mutex

/-! Reading lines. The buffer holds what editing makes of the characters that were accepted, and readers get the
committed part of that, byte by byte. -/

namespace Xv6

open Lib Logic Console Function List

namespace Cons

variable {P : Type} [DecidableEq P]

/-! ### The buffer -/

/-- The buffer holds what was committed and not yet read, from `r` on, and the line. -/
structure Buffer (s : Cons P) (r : BitVec 32) : Prop where
  le : (s.w - r).toNat ≤ (s.e - r).toNat
  room : (s.e - r).toNat ≤ INPUT_BUF
  done : s.delivered ++ slice s.buf INPUT_BUF r s.w = (edit s.input).done
  line : slice s.buf INPUT_BUF s.w s.e = (edit s.input).line

section Buffer

omit [DecidableEq P]

variable {s : Cons P} {r : BitVec 32}

theorem dvd_wrap : INPUT_BUF ∣ 2 ^ 32 := by decide

theorem le_pred (hle : (s.w - r).toNat ≤ (s.e - r).toNat) (hne : s.w ≠ s.e) :
    (s.w - r).toNat ≤ (s.e - 1 - r).toNat ∧ (s.e - 1 - r).toNat < (s.e - r).toNat := by
  have hsplit := toNat_sub_split hle
  have hpos := toNat_sub_pos hne
  have hre : r ≠ s.e := by
    intro heq
    rw [heq, sub_self, show (0 : BitVec 32).toNat = 0 from rfl] at hsplit
    omega
  have hpred := toNat_pred_sub hre
  omega

theorem killLine_spec (n : Nat) (hle : (s.w - r).toNat ≤ (s.e - r).toNat) (hn : (s.e - s.w).toNat = n) :
    ∃ e, killLine n s = s.setE e ∧ (s.w - r).toNat ≤ (e - r).toNat ∧ (e - r).toNat ≤ (s.e - r).toNat ∧
      slice s.buf INPUT_BUF s.w e = (slice s.buf INPUT_BUF s.w s.e).rdropWhile (· ≠ newline) := by
  induction n generalizing s with
  | zero =>
    have heq : s.e = s.w := by
      by_contra hne
      exact absurd (toNat_sub_pos (Ne.symm hne)) (by omega)
    refine ⟨s.e, rfl, hle, le_refl _, ?_⟩
    rw [heq, slice_self]
    rfl
  | succ n ih =>
    have hne : s.w ≠ s.e := by
      intro heq
      rw [heq, sub_self] at hn
      cases hn
    rw [slice_pred hne, rdropWhile_concat]
    by_cases hnl : s.charAt (s.e - 1) = newline
    · refine ⟨s.e, if_neg (fun hand => hand.2 hnl), hle, le_refl _, ?_⟩
      rw [slice_pred hne, if_neg]
      simpa [charAt] using hnl
    · obtain ⟨hle', hlt⟩ := le_pred hle hne
      have hn' : (s.e - 1 - s.w).toNat = n := by
        have hpred := toNat_pred_sub hne
        omega
      obtain ⟨e, heq, hwe, hee, hslice⟩ := ih (s := s.setE (s.e - 1)) hle' hn'
      refine ⟨e, ?_, hwe, le_trans hee (le_of_lt hlt), ?_⟩
      · rw [killLine, if_pos ⟨Ne.symm hne, hnl⟩, heq]
        rfl
      · rw [if_pos (by simpa [charAt] using hnl)]
        exact hslice

theorem killLine_eq (n : Nat) (s : Cons P) : ∃ e, killLine n s = s.setE e := by
  induction n generalizing s with
  | zero => exact ⟨s.e, rfl⟩
  | succ n ih =>
    unfold killLine
    split
    · obtain ⟨e, heq⟩ := ih (s.setE (s.e - 1))
      exact ⟨e, heq⟩
    · exact ⟨s.e, rfl⟩

/-- `consoleintr` leaves readers alone. -/
theorem key_frame (s : Cons P) (c : Char32) : (s.key c).lock = s.lock ∧ (s.key c).r = s.r ∧
    (s.key c).got = s.got ∧ (s.key c).results = s.results := by
  unfold key
  split
  · exact ⟨rfl, rfl, rfl, rfl⟩
  · split
    · obtain ⟨e, heq⟩ := killLine_eq (s.e - s.w).toNat s
      rw [heq]
      exact ⟨rfl, rfl, rfl, rfl⟩
    · split
      · split <;> exact ⟨rfl, rfl, rfl, rfl⟩
      · split
        · unfold store accept
          dsimp only
          split <;> exact ⟨rfl, rfl, rfl, rfl⟩
        · exact ⟨rfl, rfl, rfl, rfl⟩

/-- A character is appended to the line, or the line with it is committed. -/
theorem Buffer.store (h : s.Buffer s.r) (c : Char32) (hU : c ≠ Char32.ctrlU) (hH : c ≠ Char32.ctrlH)
    (hdel : c ≠ Char32.delete) (hroom : (s.e - s.r).toNat < INPUT_BUF) :
    ((s.store c.translate).accept ⟨c, s.e + 1 = s.r + BitVec.ofNat 32 INPUT_BUF⟩).Buffer s.r := by
  have hroom' : (s.e - s.r).toNat < 128 := hroom
  have hlen : (s.e + 1 - s.r).toNat = (s.e - s.r).toNat + 1 := toNat_succ_sub (by omega)
  have hsplit := toNat_sub_split h.le
  have hkey : (edit s.input).key ⟨c, s.e + 1 = s.r + BitVec.ofNat 32 INPUT_BUF⟩ =
      if c.translate = Char32.newline ∨ c.translate = Char32.ctrlD ∨ s.e + 1 = s.r + BitVec.ofNat 32 INPUT_BUF then
        ⟨(edit s.input).done ++ ((edit s.input).line ++ [c.translate.byte]), []⟩
      else ⟨(edit s.input).done, (edit s.input).line ++ [c.translate.byte]⟩ := by
    rw [Edit.key, if_neg hU, if_neg (not_or.2 ⟨hH, hdel⟩)]
    simp only [decide_eq_true_eq]
  by_cases hcommit : c.translate = Char32.newline ∨ c.translate = Char32.ctrlD ∨
      s.e + 1 = s.r + BitVec.ofNat 32 INPUT_BUF
  · rw [if_pos hcommit] at hkey
    have hstore : s.store c.translate = { s with
        buf := update s.buf (cell INPUT_BUF s.e) c.translate.byte
        e := s.e + 1, w := s.e + 1, asleep := fun _ => false } := if_pos hcommit
    rw [hstore]
    refine ⟨le_refl _, ?_, ?_, ?_⟩
    · show (s.e + 1 - s.r).toNat ≤ 128
      omega
    · show s.delivered ++ slice (update s.buf (cell INPUT_BUF s.e) c.translate.byte) INPUT_BUF s.r (s.e + 1) =
        (edit (s.input ++ [_])).done
      rw [edit_append, hkey, slice_push dvd_wrap hroom (by decide), ← slice_append h.le, h.line, ← h.done,
        append_assoc, append_assoc]
    · show slice _ INPUT_BUF (s.e + 1) (s.e + 1) = (edit (s.input ++ [_])).line
      rw [edit_append, hkey, slice_self]
  · rw [if_neg hcommit] at hkey
    have hstore : s.store c.translate = { s with
        buf := update s.buf (cell INPUT_BUF s.e) c.translate.byte
        e := s.e + 1 } := if_neg hcommit
    rw [hstore]
    have hle := h.le
    refine ⟨?_, ?_, ?_, ?_⟩
    · show (s.w - s.r).toNat ≤ (s.e + 1 - s.r).toNat
      omega
    · show (s.e + 1 - s.r).toNat ≤ 128
      omega
    · show s.delivered ++ slice (update s.buf (cell INPUT_BUF s.e) c.translate.byte) INPUT_BUF s.r s.w =
        (edit (s.input ++ [_])).done
      rw [edit_append, hkey, slice_write_after dvd_wrap h.le hroom]
      exact h.done
    · show slice (update s.buf (cell INPUT_BUF s.e) c.translate.byte) INPUT_BUF s.w (s.e + 1) =
        (edit (s.input ++ [_])).line
      rw [edit_append, hkey, slice_push dvd_wrap (lt_of_le_of_lt (by omega) hroom) (by decide), h.line]

/-- What `consoleintr` does to the buffer is what the character means. -/
theorem Buffer.key (h : s.Buffer s.r) (c : Char32) : (s.key c).Buffer s.r := by
  unfold Cons.key
  split
  · exact h
  · split
    · rename_i hU
      obtain ⟨e, heq, hwe, hee, hslice⟩ := killLine_spec _ h.le rfl
      have hkey : (edit s.input).key ⟨c, false⟩ =
          ⟨(edit s.input).done, (edit s.input).line.rdropWhile (· ≠ newline)⟩ := if_pos hU
      rw [heq]
      refine ⟨hwe, le_trans hee h.room, ?_, ?_⟩
      · show _ = (edit (s.input ++ [_])).done
        rw [edit_append, hkey]
        exact h.done
      · show slice s.buf INPUT_BUF s.w e = (edit (s.input ++ [_])).line
        rw [edit_append, hkey, hslice, h.line]
    · rename_i hP hU
      split
      · rename_i hH
        have hkey : (edit s.input).key ⟨c, false⟩ = ⟨(edit s.input).done, (edit s.input).line.dropLast⟩ := by
          rw [Edit.key, if_neg hU, if_pos hH]
        by_cases hne : s.e ≠ s.w
        · rw [if_pos hne]
          obtain ⟨hle, hlt⟩ := le_pred h.le hne.symm
          refine ⟨hle, le_trans (le_of_lt hlt) h.room, ?_, ?_⟩
          · show _ = (edit (s.input ++ [_])).done
            rw [edit_append, hkey]
            exact h.done
          · show slice s.buf INPUT_BUF s.w (s.e - 1) = (edit (s.input ++ [_])).line
            rw [edit_append, hkey, ← h.line, slice_pred hne.symm, dropLast_concat]
        · rw [if_neg hne]
          rw [not_not] at hne
          refine ⟨h.le, h.room, ?_, ?_⟩
          · show _ = (edit (s.input ++ [_])).done
            rw [edit_append, hkey]
            exact h.done
          · show slice s.buf INPUT_BUF s.w s.e = (edit (s.input ++ [_])).line
            rw [edit_append, hkey, ← h.line, hne, slice_self]
            rfl
      · rename_i hH
        split
        · rename_i hroom
          obtain ⟨hH', hdel⟩ := not_or.1 hH
          exact h.store c hU hH' hdel hroom.2
        · exact h

end Buffer

/-! ### What holds in every state -/

/-- What the holder of the lock knows: nothing, that there is a byte to read, or the byte that it has taken and
not passed on. -/
inductive Hold where
  | plain
  | ready
  | taken (c : UInt8)

/-- What a process knows, with the bytes that its call has got. -/
structure Reader where
  held : Option Hold
  got : List UInt8

namespace Reader

def setHeld (ρ : Reader) (x : Option Hold) : Reader := { ρ with held := x }
def setGot (ρ : Reader) (bytes : List UInt8) : Reader := { ρ with got := bytes }

end Reader

def Hold.tested (empty : Bool) : Hold := if empty then .plain else .ready

/-- The promises of the code. -/
def readers : Logic (ConsSig P) Reader where
  pre
    | ρ, .acquire | ρ, .woken => ρ.held = none
    | ρ, .release | ρ, .key _ | ρ, .empty | ρ, .killed | ρ, .sleep => ρ.held = some .plain
    | ρ, .take => ρ.held = some .ready
    | ρ, .back => ∃ c, ρ.held = some (.taken c)
    | ρ, .deliver c => ρ.held = some (.taken c) ∧ c ≠ ctrlD ∧ newline ∉ ρ.got
    | ρ, .eof => ρ.held = some (.taken ctrlD) ∧ ρ.got = []
    | ρ, .result v => v = -1 ∨ v = ρ.got.length
    | _, _ => True
  post
    | ρ, .acquire, _, ρ' | ρ, .woken, _, ρ' | ρ, .back, _, ρ' | ρ, .eof, _, ρ' => ρ' = ρ.setHeld (some .plain)
    | ρ, .release, _, ρ' | ρ, .sleep, _, ρ' => ρ' = ρ.setHeld none
    | ρ, .empty, r, ρ' => ρ' = ρ.setHeld (some (Hold.tested r))
    | ρ, .take, c, ρ' => ρ' = ρ.setHeld (some (.taken c))
    | ρ, .start, _, ρ' => ρ' = ρ.setGot []
    | ρ, .deliver c, _, ρ' => ρ' = (ρ.setHeld (some .plain)).setGot (ρ.got ++ [c])
    | ρ, _, _, ρ' => ρ' = ρ

/-- The bytes of one call: a newline comes last, and no control-D is among them. -/
def OneLine (bytes : List UInt8) : Prop := newline ∉ bytes.dropLast ∧ ctrlD ∉ bytes

/-- The buffer, as the holder of the lock has it. A byte that was taken still counts as one of the buffer. -/
def At (s : Cons P) : Option Hold → Prop
  | none | some .plain => s.Buffer s.r
  | some .ready => s.Buffer s.r ∧ s.r ≠ s.w
  | some (.taken c) => s.Buffer (s.r - 1) ∧ s.r - 1 ≠ s.w ∧ s.charAt (s.r - 1) = c

structure Inv (s : Cons P) (ρ : P → Reader) : Prop where
  mutex : Mutex s.lock (Reader.held ∘ ρ)
  buffer : s.At (holder s.lock (Reader.held ∘ ρ))
  got : s.got = Reader.got ∘ ρ
  oneLine : ∀ p, OneLine (s.got p)
  results : ∀ x ∈ s.results, OneLine x.1 ∧ (x.2 = -1 ∨ x.2 = x.1.length)

variable {x : Option Hold}

section Steps

variable {s s' : Cons P} {ρ : P → Reader} {p : P}

namespace Inv

section

omit [DecidableEq P]

theorem at_held (h : Inv s ρ) {x : Hold} (hx : (ρ p).held = some x) : s.At (some x) := by
  rw [← h.mutex.holder_eq (p := p) hx]
  exact h.buffer

theorem at_free (h : Inv s ρ) (hfree : s.lock = none) : s.At none := by
  have hbuf := h.buffer
  rwa [hfree] at hbuf

theorem locked (h : Inv s ρ) {x : Hold} (hx : (ρ p).held = some x) : s.lock = some p := by
  apply (h.mutex p).2
  rw [comp_apply, hx]
  rfl

end

section

variable (h : Inv s ρ) (hwas : s.lock = none ∨ (ρ p).held.isSome)
  (hlock : s'.lock = if x.isSome then some p else none) (hat : s'.At x)
include h hwas hlock hat

/-- A step of a process that takes the lock, gives it up or works under it. -/
theorem step {bytes : List UInt8}
    (hgot : s'.got = update s.got p bytes) (hline : OneLine bytes) (hresults : s'.results = s.results) :
    Inv s' (update ρ p ⟨x, bytes⟩) := by
  constructor
  · rw [hlock, comp_update]
    exact h.mutex.update hwas x
  · rw [hlock, comp_update, Mutex.holder_update]
    exact hat
  · rw [hgot, h.got, comp_update]
  · intro q
    rw [hgot]
    by_cases hq : q = p
    · rw [hq, update_self]
      exact hline
    · rw [update_of_ne hq]
      exact h.oneLine q
  · rw [hresults]
    exact h.results

/-- A step that leaves the call's bytes alone. -/
theorem hold (hgot : s'.got = s.got) (hresults : s'.results = s.results) : Inv s' (update ρ p ((ρ p).setHeld x)) := by
  have hbytes : (ρ p).got = s.got p := by
    rw [h.got]
    rfl
  refine h.step hwas hlock hat ?_ ?_ hresults
  · rw [hgot, hbytes, update_eq_self]
  · rw [hbytes]
    exact h.oneLine p

end

/-- A step that leaves the lock and the buffer alone. -/
theorem record (h : Inv s ρ) {bytes : List UInt8} (hlock : s'.lock = s.lock) (hat : ∀ x, s.At x → s'.At x)
    (hgot : s'.got = update s.got p bytes) (hline : OneLine bytes)
    (hresults : ∀ x ∈ s'.results, OneLine x.1 ∧ (x.2 = -1 ∨ x.2 = x.1.length)) :
    Inv s' (update ρ p ((ρ p).setGot bytes)) := by
  have hheld : Reader.held ∘ update ρ p ((ρ p).setGot bytes) = Reader.held ∘ ρ := by
    rw [comp_update]
    exact update_eq_self ..
  constructor
  · rw [hlock, hheld]
    exact h.mutex
  · rw [hlock, hheld]
    exact hat _ h.buffer
  · rw [hgot, h.got, comp_update]
    rfl
  · intro q
    rw [hgot]
    by_cases hq : q = p
    · rw [hq, update_self]
      exact hline
    · rw [update_of_ne hq]
      exact h.oneLine q
  · exact hresults

end Inv

omit [DecidableEq P]

/-- Locks, sleepers and records are no part of the buffer. -/
theorem Buffer.congr {r : BitVec 32} (h : s.Buffer r) (hbuf : s'.buf = s.buf) (hw : s'.w = s.w) (he : s'.e = s.e)
    (hinput : s'.input = s.input) (hdelivered : s'.delivered = s.delivered) : s'.Buffer r := by
  constructor
  · rw [hw, he]
    exact h.le
  · rw [he]
    exact h.room
  · rw [hdelivered, hbuf, hw, hinput]
    exact h.done
  · rw [hbuf, hw, he, hinput]
    exact h.line

theorem At.congr (h : s.At x) (hbuf : s'.buf = s.buf) (hr : s'.r = s.r) (hw : s'.w = s.w)
    (he : s'.e = s.e) (hinput : s'.input = s.input) (hdelivered : s'.delivered = s.delivered) : s'.At x := by
  cases x with
  | none =>
    show s'.Buffer s'.r
    rw [hr]
    exact Buffer.congr h hbuf hw he hinput hdelivered
  | some x =>
    cases x with
    | plain =>
      show s'.Buffer s'.r
      rw [hr]
      exact Buffer.congr h hbuf hw he hinput hdelivered
    | ready =>
      show s'.Buffer s'.r ∧ s'.r ≠ s'.w
      rw [hr, hw]
      exact ⟨Buffer.congr h.1 hbuf hw he hinput hdelivered, h.2⟩
    | taken c =>
      show s'.Buffer (s'.r - 1) ∧ s'.r - 1 ≠ s'.w ∧ s'.buf _ = c
      rw [hr, hw, hbuf]
      exact ⟨Buffer.congr h.1 hbuf hw he hinput hdelivered, h.2⟩

/-- The byte that was taken is passed on. -/
theorem Buffer.deliver {r : BitVec 32} (h : s.Buffer r) (hne : r ≠ s.w) (hbuf : s'.buf = s.buf) (hw : s'.w = s.w)
    (he : s'.e = s.e) (hinput : s'.input = s.input) (hdelivered : s'.delivered = s.delivered ++ [s.charAt r]) :
    s'.Buffer (r + 1) := by
  have hwr := toNat_sub_succ hne
  have hle := h.le
  have hroom := h.room
  have her : r ≠ s.e := by
    intro heq
    have hzero : (s.e - r).toNat = 0 := by
      rw [heq, sub_self]
      rfl
    omega
  have her' := toNat_sub_succ her
  constructor
  · rw [hw, he]
    omega
  · rw [he]
    omega
  · rw [hdelivered, hbuf, hw, hinput, ← h.done, slice_pop hne, append_assoc]
    rfl
  · rw [hbuf, hw, he, hinput]
    exact h.line

end Steps

theorem sound : (machine : Machine (ConsSig P) P (Cons P)).Sound readers (fun _ _ _ => True) Inv := by
  intro s ρ p o r s' hinv hpre _ hexec
  have hheld : ∀ {x : Hold}, (ρ p).held = some x → (s.lock = none ∨ (ρ p).held.isSome) := by
    intro x hx
    exact Or.inr (by rw [hx]; rfl)
  cases o with
  | acquire =>
    simp only [machine, exec] at hexec
    split at hexec
    · cases hexec
    · rename_i hfree
      cases hexec
      have hat := hinv.at_free hfree
      exact ⟨_, rfl, hinv.hold (Or.inl hfree) rfl (At.congr (x := some .plain) hat rfl rfl rfl rfl rfl rfl) rfl rfl⟩
  | release | sleep =>
    cases hexec
    have hat := hinv.at_held hpre
    exact ⟨_, rfl, hinv.hold (hheld hpre) rfl (At.congr (x := none) hat rfl rfl rfl rfl rfl rfl) rfl rfl⟩
  | key c =>
    cases hexec
    have hat : s.Buffer s.r := hinv.at_held hpre
    have hsame : (s.key c).lock = s.lock ∧ (s.key c).r = s.r ∧ (s.key c).got = s.got ∧
        (s.key c).results = s.results := key_frame s c
    have hρ : ρ p = (ρ p).setHeld (some .plain) := by
      rw [← (show (ρ p).held = some .plain from hpre)]
      rfl
    refine ⟨ρ p, rfl, ?_⟩
    rw [hρ]
    refine hinv.hold (hheld hpre) ?_ ?_ hsame.2.2.1 hsame.2.2.2
    · rw [hsame.1, hinv.locked hpre]
      rfl
    · show (s.key c).Buffer (s.key c).r
      rw [hsame.2.1]
      exact hat.key c
  | empty =>
    cases hexec
    have hat : s.Buffer s.r := hinv.at_held hpre
    refine ⟨_, rfl, hinv.hold (hheld hpre) (hinv.locked hpre) ?_ rfl rfl⟩
    cases hempty : (s.r == s.w) with
    | true => exact hat
    | false => exact ⟨hat, ne_of_beq_false hempty⟩
  | killed =>
    cases hexec
    exact ⟨_, rfl, by rwa [update_eq_self]⟩
  | woken =>
    simp only [machine, exec] at hexec
    split at hexec
    · rename_i hfree
      cases hexec
      have hat := hinv.at_free hfree
      exact ⟨_, rfl, hinv.hold (Or.inl hfree) rfl (At.congr (x := some .plain) hat rfl rfl rfl rfl rfl rfl) rfl rfl⟩
    · cases hexec
  | take =>
    cases hexec
    obtain ⟨hbuf, hne⟩ := hinv.at_held hpre
    refine ⟨_, rfl, hinv.hold (hheld hpre) (hinv.locked hpre) ?_ rfl rfl⟩
    show Buffer _ (s.r + 1 - 1) ∧ s.r + 1 - 1 ≠ s.w ∧ s.charAt (s.r + 1 - 1) = s.charAt s.r
    rw [add_sub_cancel_right]
    exact ⟨hbuf.congr rfl rfl rfl rfl rfl, hne, rfl⟩
  | back =>
    cases hexec
    obtain ⟨c, hc⟩ := hpre
    obtain ⟨hbuf, -, -⟩ := hinv.at_held hc
    exact ⟨_, rfl, hinv.hold (hheld hc) (hinv.locked hc) (hbuf.congr rfl rfl rfl rfl rfl) rfl rfl⟩
  | start =>
    cases hexec
    refine ⟨_, rfl, hinv.record rfl (fun _ hat => hat.congr rfl rfl rfl rfl rfl rfl) rfl ?_ hinv.results⟩
    exact ⟨not_mem_nil, not_mem_nil⟩
  | deliver c =>
    cases hexec
    obtain ⟨hc, hD, hnl⟩ := hpre
    obtain ⟨hbuf, hne, hchar⟩ := hinv.at_held hc
    have hgot : s.got p = (ρ p).got := by
      rw [hinv.got]
      rfl
    refine ⟨_, rfl, hinv.step (hheld hc) (hinv.locked hc) ?_ ?_ ?_ rfl⟩
    · have hnext : Buffer { s with
          delivered := s.delivered ++ [c]
          got := update s.got p (s.got p ++ [c]) } (s.r - 1 + 1) :=
        hbuf.deliver hne rfl rfl rfl rfl (by rw [hchar])
      rw [sub_add_cancel] at hnext
      exact hnext
    · rw [hgot]
    · refine ⟨by rwa [dropLast_concat], ?_⟩
      rw [mem_append, mem_singleton, not_or]
      exact ⟨hgot ▸ (hinv.oneLine p).2, Ne.symm hD⟩
  | eof =>
    cases hexec
    obtain ⟨hc, -⟩ := hpre
    obtain ⟨hbuf, hne, hchar⟩ := hinv.at_held hc
    refine ⟨_, rfl, hinv.hold (hheld hc) (hinv.locked hc) ?_ rfl rfl⟩
    have hnext : Buffer { s with delivered := s.delivered ++ [ctrlD] } (s.r - 1 + 1) :=
      hbuf.deliver hne rfl rfl rfl rfl (by rw [hchar])
    rw [sub_add_cancel] at hnext
    exact hnext
  | result v =>
    cases hexec
    have hgot : s.got p = (ρ p).got := by
      rw [hinv.got]
      rfl
    refine ⟨(ρ p).setGot (s.got p), by rw [hgot]; rfl, hinv.record rfl
      (fun _ hat => hat.congr rfl rfl rfl rfl rfl rfl) (update_eq_self ..).symm (hinv.oneLine p) ?_⟩
    intro x hx
    cases mem_append.1 hx with
    | inl hx => exact hinv.results x hx
    | inr hx =>
      rw [mem_singleton.1 hx]
      refine ⟨hinv.oneLine p, ?_⟩
      rw [hgot]
      exact hpre
  | kill q =>
    cases hexec
    have hgot : s.got p = (ρ p).got := by
      rw [hinv.got]
      rfl
    exact ⟨(ρ p).setGot (s.got p), by rw [hgot]; rfl, hinv.record rfl
      (fun _ hat => hat.congr rfl rfl rfl rfl rfl rfl) (update_eq_self ..).symm (hinv.oneLine p) hinv.results⟩
  | halt => cases hexec

/-! ### The code keeps its promises -/

section Code

omit [DecidableEq P]

variable {ρ : Reader}

theorem wp_finish (v : Int) (hheld : ρ.held = some .plain) (hv : v = -1 ∨ v = ρ.got.length) :
    readers.wp (do op (P := P) .release; pure v) (fun v ρ' => ρ'.held = none ∧ (v = -1 ∨ v = ρ'.got.length)) ρ := by
  refine ⟨hheld, ?_⟩
  intro _ ρ' heq
  rw [show ρ' = ρ.setHeld none from heq]
  exact ⟨rfl, hv⟩

theorem wp_consolereadFrom (dst : Nat → Bool) (hdst : ∀ i, dst i = true) (target fuel n : Nat) (hn : n ≤ target)
    (hheld : ρ.held = some .plain) (hlen : ρ.got.length = target - n) (hnl : newline ∉ ρ.got) :
    readers.wp (consolereadFrom (P := P) dst target fuel n)
      (fun v ρ' => ρ'.held = none ∧ (v = -1 ∨ v = ρ'.got.length)) ρ := by
  induction fuel generalizing n ρ with
  | zero => exact ⟨trivial, nofun⟩
  | succ fuel ih =>
    cases n with
    | zero =>
      refine wp_finish target hheld (Or.inr ?_)
      rw [hlen, Nat.sub_zero]
    | succ n =>
      have hlen' : ((target : Int) - (n + 1 : Nat)) = ρ.got.length := by
        rw [hlen]
        omega
      unfold consolereadFrom
      refine wp_step hheld ?_
      intro empty ρ₁ hρ₁
      rw [show ρ₁ = ρ.setHeld (some (Hold.tested empty)) from hρ₁]
      split
      · rename_i hempty
        rw [hempty]
        refine wp_step rfl ?_
        intro killed ρ₂ hρ₂
        rw [show ρ₂ = ρ.setHeld (some .plain) from hρ₂]
        split
        · exact wp_finish (-1) rfl (Or.inl rfl)
        · refine wp_step rfl ?_
          intro _ ρ₃ hρ₃
          rw [hρ₃]
          refine wp_step rfl ?_
          intro _ ρ₄ hρ₄
          rw [hρ₄]
          exact ih (n + 1) hn rfl hlen hnl
      · rename_i hempty
        have hfalse : empty = false := Bool.eq_false_iff.2 hempty
        rw [hfalse]
        refine wp_step rfl ?_
        intro (c : UInt8) ρ₂ hρ₂
        rw [show ρ₂ = ρ.setHeld (some (.taken c)) from hρ₂]
        split
        · rename_i hD
          split
          · refine wp_step ⟨c, rfl⟩ ?_
            intro _ ρ₃ hρ₃
            rw [hρ₃]
            exact wp_finish _ rfl (Or.inr hlen')
          · refine wp_step ⟨by rw [hD]; rfl, ?_⟩ ?_
            · apply eq_nil_of_length_eq_zero
              show ρ.got.length = 0
              omega
            · intro _ ρ₃ hρ₃
              rw [hρ₃]
              exact wp_finish _ rfl (Or.inr hlen')
        · rename_i hD
          rw [if_pos (hdst _)]
          refine wp_step ⟨rfl, hD, hnl⟩ ?_
          intro _ ρ₃ hρ₃
          rw [hρ₃]
          have hlen₃ : (ρ.got ++ [c]).length = target - n := by
            rw [length_append, hlen, length_singleton]
            omega
          split
          · refine wp_finish _ rfl (Or.inr ?_)
            show (target : Int) - n = (ρ.got ++ [c]).length
            omega
          · rename_i hc
            refine ih n (by omega) rfl hlen₃ ?_
            show newline ∉ ρ.got ++ [c]
            rw [mem_append, mem_singleton, not_or]
            exact ⟨hnl, Ne.symm hc⟩

theorem wp_run (c : Call P) (hcopy : c.Copies) (hheld : ρ.held = none) :
    readers.wp c.run (fun _ ρ' => ρ'.held = none) ρ := by
  cases c with
  | intr c =>
    refine wp_step hheld ?_
    intro _ ρ₁ hρ₁
    rw [hρ₁]
    refine wp_step rfl ?_
    intro _ ρ₂ hρ₂
    rw [hρ₂]
    refine ⟨rfl, ?_⟩
    intro _ ρ₃ hρ₃
    rw [hρ₃]
    rfl
  | read dst n fuel =>
    refine wp_step trivial ?_
    intro _ ρ₁ hρ₁
    rw [hρ₁]
    refine wp_seq (A := fun v ρ' => ρ'.held = none ∧ (v = -1 ∨ v = ρ'.got.length)) ?_ ?_
    · refine wp_step hheld ?_
      intro _ ρ₂ hρ₂
      rw [hρ₂]
      exact wp_consolereadFrom dst hcopy _ fuel _ (le_refl _) rfl (Nat.sub_self _).symm not_mem_nil
    · intro v ρ₂ hρ₂
      refine ⟨hρ₂.2, ?_⟩
      intro _ ρ₃ hρ₃
      rw [show ρ₃ = ρ₂ from hρ₃]
      exact hρ₂.1
  | kill q =>
    refine ⟨trivial, ?_⟩
    intro _ ρ₁ hρ₁
    rw [show ρ₁ = ρ from hρ₁]
    exact hheld

theorem wp_runAll (cs : List (Call P)) (hcopy : ∀ c ∈ cs, c.Copies) (hheld : ρ.held = none) :
    readers.wp (runAll cs) (fun _ _ => True) ρ := by
  induction cs generalizing ρ with
  | nil => exact trivial
  | cons c cs ih =>
    refine wp_seq (wp_run c (hcopy c (mem_cons_self ..)) hheld) ?_
    intro _ ρ₁ hρ₁
    exact ih (fun c' hc' => hcopy c' (mem_cons_of_mem c hc')) hρ₁

end Code

omit [DecidableEq P] in
theorem inv_init : Inv (init : Cons P) fun _ => ⟨none, []⟩ := by
  refine ⟨fun p => by simp [init], ?_, rfl, fun p => ⟨not_mem_nil, not_mem_nil⟩, nofun⟩
  constructor <;> simp [init, edit]

section Bounds

omit [DecidableEq P]

variable {s : Cons P}

/-- The order of the indices, also while a byte is between the buffer and a reader. -/
theorem At.bounds (h : s.At x) : (s.w - s.r).toNat ≤ (s.e - s.r).toNat ∧
    (s.e - s.r).toNat ≤ INPUT_BUF ∧ s.delivered <+: (edit s.input).done := by
  have hplain : s.Buffer s.r → (s.w - s.r).toNat ≤ (s.e - s.r).toNat ∧
      (s.e - s.r).toNat ≤ INPUT_BUF ∧ s.delivered <+: (edit s.input).done :=
    fun hbuf => ⟨hbuf.le, hbuf.room, ⟨_, hbuf.done⟩⟩
  cases x with
  | none => exact hplain h
  | some x =>
    cases x with
    | plain => exact hplain h
    | ready => exact hplain h.1
    | taken c =>
      obtain ⟨hbuf, hne, -⟩ := h
      have hnext : Buffer { s with delivered := s.delivered ++ [s.charAt (s.r - 1)] } (s.r - 1 + 1) :=
        hbuf.deliver hne rfl rfl rfl rfl rfl
      rw [sub_add_cancel] at hnext
      exact ⟨hnext.le, hnext.room, ⟨_, hbuf.done⟩⟩

theorem done_prefix_key (x : Edit) (k : Key) : x.done <+: (x.key k).done := by
  unfold Edit.key
  split
  · exact prefix_rfl
  · split
    · exact prefix_rfl
    · split
      · exact prefix_append ..
      · exact prefix_rfl

theorem key_input (c : Char32) : (s.key c).delivered = s.delivered ∧
    ((s.key c).input = s.input ∨ ∃ k, (s.key c).input = s.input ++ [k]) := by
  unfold key
  split
  · exact ⟨rfl, Or.inl rfl⟩
  · split
    · obtain ⟨e, heq⟩ := killLine_eq (s.e - s.w).toNat s
      rw [heq]
      exact ⟨rfl, Or.inr ⟨_, rfl⟩⟩
    · split
      · split <;> exact ⟨rfl, Or.inr ⟨_, rfl⟩⟩
      · split
        · unfold store accept
          dsimp only
          split <;> exact ⟨rfl, Or.inr ⟨_, rfl⟩⟩
        · exact ⟨rfl, Or.inl rfl⟩

/-- No character takes away what is committed. -/
theorem Buffer.committed (h : s.Buffer s.r) (c : Char32) :
    slice s.buf INPUT_BUF s.r s.w <+: slice (s.key c).buf INPUT_BUF (s.key c).r (s.key c).w := by
  obtain ⟨hdelivered, hinput⟩ := key_input (s := s) c
  have hdone : (edit s.input).done <+: (edit (s.key c).input).done := by
    cases hinput with
    | inl hsame => rw [hsame]
    | inr hmore =>
      obtain ⟨k, hk⟩ := hmore
      rw [hk, edit_append]
      exact done_prefix_key _ k
  rw [(key_frame s c).2.1, ← prefix_append_right_inj s.delivered]
  calc s.delivered ++ slice s.buf INPUT_BUF s.r s.w = (edit s.input).done := h.done
    _ <+: (edit (s.key c).input).done := hdone
    _ = s.delivered ++ slice (s.key c).buf INPUT_BUF s.r (s.key c).w := by
        rw [← (h.key c).done, hdelivered]

end Bounds

end Cons

end Xv6
