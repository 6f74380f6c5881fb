import Mathlib.Data.List.TakeWhile
import Mathlib.Data.UInt
import Xv6.Param

/-! `xargs.c`. A line is read into 511 bytes, split in place, and becomes arguments after those of the command line. The
number of words is checked after their addresses are stored in `line_argv`. -/

namespace Xv6.Xargs

open List

def MAX_LINE : Nat := 512

/-- The loop that reads a line, and the input that is left, if it did not end. -/
def readLine : List UInt8 → List UInt8 → List UInt8 × Option (List UInt8)
  | line, [] => (line, none)
  | line, c :: input =>
      if c = 10 then (line, some input)
      else readLine (if line.length < MAX_LINE - 1 then line ++ [c] else line) input

/-- The loop over blanks: the bytes before `p`, with those that it clears, and the string at `p`. -/
def skipBlanks : List UInt8 → List UInt8 → List UInt8 × List UInt8
  | before, c :: rest => if c = 32 then skipBlanks (before ++ [0]) rest else (before, c :: rest)
  | before, [] => (before, [])

/-- The loop to the end of a word. -/
def skipWord : List UInt8 → List UInt8 → List UInt8 × List UInt8
  | before, c :: rest => if c ≠ 32 then skipWord (before ++ [c]) rest else (before, c :: rest)
  | before, [] => (before, [])

/-- The loop that splits the string at `p`: the bytes of `line` and the offsets in `line_argv`, or nothing when an offset
is stored after its end. -/
def split : Nat → List UInt8 → List UInt8 → List Nat → Option (List UInt8 × List Nat)
  | 0, before, _, argv => some (before, argv)
  | fuel + 1, before, rest, argv =>
      if rest = [] then some (before, argv)
      else
        let (before, rest) := skipBlanks before rest
        if rest = [] then some (before, argv)
        else if MAXARG ≤ argv.length then none
        else
          let (before', rest) := skipWord before rest
          split fuel before' rest (argv ++ [before.length])

/-- The string at an offset. -/
def arg (mem : List UInt8) (p : Nat) : List UInt8 := (mem.drop p).takeWhile (· ≠ 0)

/-- The strings of `line_argv`. -/
def lineArgv (line : List UInt8) : Option (List (List UInt8)) :=
  (split (line.length + 1) [] (line.takeWhile (· ≠ 0)) []).map fun r => r.2.map (arg r.1)

inductive Ending where
  | usage
  | readError
  | eof
  | tooMany
  | forkFailed
  | overflow
  deriving DecidableEq

/-- The loop of `main`: the commands that are run, and why it ends. `read` may fail after the input, and a number of
forks work. -/
def mainFrom (orig : List (List UInt8)) (failed : Bool) : Nat → Nat → List UInt8 → List (List (List UInt8)) × Ending
  | 0, _, _ => ([], .eof)
  | fuel + 1, forks, input =>
      let (line, rest) := readLine [] input
      if rest = none ∧ failed then ([], .readError)
      else if rest = none ∧ line = [] then ([], .eof)
      else match lineArgv line with
        | none => ([], .overflow)
        | some argv =>
            if MAXARG ≤ orig.length + argv.length then ([], .tooMany)
            else if forks = 0 then ([], .forkFailed)
            else
              let r := mainFrom orig failed fuel (forks - 1) (rest.getD [])
              ((orig ++ argv) :: r.1, r.2)

/-- The arguments of the command line are stored in `cmd_argv` first. -/
def main (orig : List (List UInt8)) (failed : Bool) (forks : Nat) (input : List UInt8) : List (List (List UInt8)) × Ending :=
  if orig = [] then ([], .usage)
  else if MAXARG < orig.length then ([], .overflow)
  else mainFrom orig failed (input.length + 1) forks input

/-! ### What it should do -/

def words (l : List UInt8) : List (List UInt8) := (l.splitOn 32).filter (· ≠ [])

/-- The lines of the input. The last one may have no newline. -/
def lines (input : List UInt8) : List (List UInt8) :=
  if (input.splitOn 10).getLast? = some [] then (input.splitOn 10).dropLast else input.splitOn 10

def expected (orig : List (List UInt8)) : List (List UInt8) → List (List (List UInt8)) × Ending
  | [] => ([], .eof)
  | l :: ls =>
      if MAXARG ≤ orig.length + (words l).length then ([], .tooMany)
      else ((orig ++ words l) :: (expected orig ls).1, (expected orig ls).2)

/-- What `line` has of a line. -/
def seen (l : List UInt8) : List UInt8 := (l.take (MAX_LINE - 1)).takeWhile (· ≠ 0)

/-- The lines up to the one that ends `xargs` have their words where it sees them, and no more than it can store. -/
def Fits (orig : List (List UInt8)) : List (List UInt8) → Prop
  | [] => True
  | l :: ls =>
      if MAXARG ≤ orig.length + (words l).length then
        (words (seen l)).length ≤ MAXARG ∧ MAXARG ≤ orig.length + (words (seen l)).length
      else words (seen l) = words l ∧ Fits orig ls

section Words

variable {l rest : List UInt8}

theorem words_blank : words (32 :: l) = words l := by
  have hsplit : splitOnP (· == 32) ([] ++ 32 :: l) = [] :: splitOnP (· == 32) l :=
    splitOnP_append_cons_of_forall_mem nofun 32 rfl l
  unfold words splitOn
  rw [← nil_append (32 :: l), hsplit, filter_cons_of_neg (by simp)]

theorem words_word (hne : l ≠ []) (hl : ∀ c ∈ l, c ≠ 32) (hrest : rest = [] ∨ ∃ rest', rest = 32 :: rest') :
    words (l ++ rest) = l :: words rest := by
  have hnot : ∀ c ∈ l, (c == (32 : UInt8)) = false := fun c hc => beq_false_of_ne (hl c hc)
  rcases hrest with rfl | ⟨rest, rfl⟩
  · unfold words splitOn
    rw [append_nil, splitOnP_eq_singleton hnot, filter_cons_of_pos (by simpa using hne)]
    rfl
  · rw [words_blank]
    unfold words splitOn
    rw [splitOnP_append_cons_of_forall_mem hnot 32 rfl, filter_cons_of_pos (by simpa using hne)]

/-- A blank is cleared. -/
def clear (c : UInt8) : UInt8 := if c = 32 then 0 else c

theorem skipBlanks_spec (before l : List UInt8) : ∃ b, l = b ++ (skipBlanks before l).2 ∧ words (skipBlanks before l).2 = words l ∧
    (skipBlanks before l).1 = before ++ b.map clear ∧ ∀ r, (skipBlanks before l).2 ≠ 32 :: r := by
  induction l generalizing before with
  | nil => exact ⟨[], rfl, rfl, (append_nil _).symm, nofun⟩
  | cons c l ih =>
    rw [skipBlanks]
    split
    · rename_i hc
      obtain ⟨b, hb, hwords, hbefore, hrest⟩ := ih (before ++ [0])
      refine ⟨c :: b, by rw [cons_append, ← hb], by rw [hwords, hc, words_blank], ?_, hrest⟩
      rw [hbefore, append_assoc, map_cons, clear, if_pos hc, singleton_append]
    · rename_i hc
      exact ⟨[], rfl, rfl, (append_nil _).symm, fun r heq => hc (cons.inj heq).1⟩

theorem skipWord_spec (before l : List UInt8) : ∃ w, l = w ++ (skipWord before l).2 ∧ (∀ c ∈ w, c ≠ 32) ∧
    (skipWord before l).1 = before ++ w ∧ ((skipWord before l).2 = [] ∨ ∃ r, (skipWord before l).2 = 32 :: r) := by
  induction l generalizing before with
  | nil => exact ⟨[], rfl, nofun, (append_nil _).symm, Or.inl rfl⟩
  | cons c l ih =>
    rw [skipWord]
    split
    · rename_i hc
      obtain ⟨w, hw, hword, hbefore, hrest⟩ := ih (before ++ [c])
      refine ⟨c :: w, by rw [cons_append, ← hw], forall_mem_cons.2 ⟨hc, hword⟩, ?_, hrest⟩
      rw [hbefore, append_assoc, singleton_append]
    · rename_i hc
      exact ⟨[], rfl, nofun, (append_nil _).symm, Or.inr ⟨l, by rw [not_not.1 hc]⟩⟩

theorem arg_word {before w rest : List UInt8} (hw : ∀ c ∈ w, c ≠ 0) (hrest : rest = [] ∨ ∃ r, rest = 32 :: r) :
    arg (before ++ (w ++ rest.map clear)) before.length = w := by
  unfold arg
  rw [drop_left, takeWhile_append_of_pos (by simpa using hw)]
  rcases hrest with rfl | ⟨r, rfl⟩
  · exact append_nil w
  · rw [map_cons, clear, if_pos rfl, takeWhile_cons_of_neg (by simp), append_nil]

theorem split_succ (fuel : Nat) (before l : List UInt8) (argv : List Nat) : split (fuel + 1) before l argv =
    if (skipBlanks before l).2 = [] then some ((skipBlanks before l).1, argv)
    else if MAXARG ≤ argv.length then none
    else split fuel (skipWord (skipBlanks before l).1 (skipBlanks before l).2).1
      (skipWord (skipBlanks before l).1 (skipBlanks before l).2).2 (argv ++ [(skipBlanks before l).1.length]) := by
  cases l with
  | nil => rfl
  | cons c l => rw [split, if_neg (cons_ne_nil c l)]

/-- The offsets that are stored are those of the words. -/
theorem split_spec {fuel : Nat} (before : List UInt8) (hfuel : l.length < fuel) (hl : ∀ c ∈ l, c ≠ 0) :
    ∃ offs, offs.map (arg (before ++ l.map clear)) = words l ∧ ∀ argv, argv.length ≤ MAXARG → split fuel before l argv =
      if argv.length + offs.length ≤ MAXARG then some (before ++ l.map clear, argv ++ offs) else none := by
  induction fuel generalizing l before with
  | zero => exact absurd hfuel (Nat.not_lt_zero _)
  | succ fuel ih =>
    obtain ⟨b, hb, hwords, hbefore, hstart⟩ := skipBlanks_spec before l
    simp only [split_succ]
    generalize skipBlanks before l = sb at *
    obtain ⟨before₁, r⟩ := sb
    obtain rfl : before₁ = before ++ b.map clear := hbefore
    obtain rfl : l = b ++ r := hb
    rw [← hwords, map_append, ← append_assoc]
    generalize before ++ b.map clear = before at *
    dsimp only at *
    by_cases hr : r = []
    · refine ⟨[], by rw [hr]; rfl, fun argv hargv => ?_⟩
      rw [if_pos hr, if_pos (by simpa using hargv), hr, map_nil, append_nil, append_nil]
    · obtain ⟨w, hw, hword, hbefore, hrest⟩ := skipWord_spec before r
      simp only [if_neg hr]
      generalize skipWord before r = sw at *
      obtain ⟨before₂, r'⟩ := sw
      obtain rfl : before₂ = before ++ w := hbefore
      obtain rfl : r = w ++ r' := hw
      have hwne : w ≠ [] := by
        rintro rfl
        rcases hrest with rfl | ⟨r'', rfl⟩
        · exact hr rfl
        · exact hstart r'' rfl
      have hclear : w.map clear = w := by
        calc w.map clear = w.map id := map_congr_left fun c hc => if_neg (hword c hc)
          _ = w := map_id w
      have hlen : r'.length < fuel := by
        have := length_pos_of_ne_nil hwne
        rw [length_append, length_append] at hfuel
        omega
      obtain ⟨offs, hoffs, hsplit⟩ := ih (before ++ w) hlen fun c hc => hl c (by simp [hc])
      rw [words_word hwne hword hrest, map_append, hclear]
      refine ⟨before.length :: offs, ?_, fun argv hargv => ?_⟩
      · rw [map_cons, arg_word (fun c hc => hl c (by simp [hc])) hrest, ← append_assoc, hoffs]
      · split
        · rw [if_neg (by rw [length_cons]; omega)]
        · rw [hsplit _ (by rw [length_append]; exact Nat.lt_of_not_le ‹_›)]
          simp [Nat.add_comm, Nat.add_left_comm]

/-- What was read of a line is split into its words, or they do not fit. -/
theorem lineArgv_take (l : List UInt8) : lineArgv (l.take (MAX_LINE - 1)) =
    if (words (seen l)).length ≤ MAXARG then some (words (seen l)) else none := by
  obtain ⟨offs, hoffs, hsplit⟩ := split_spec [] (l := seen l)
    (Nat.lt_succ_of_le (takeWhile_sublist _).length_le) fun c hc => by simpa using mem_takeWhile_imp hc
  unfold lineArgv
  rw [show (l.take (MAX_LINE - 1)).takeWhile _ = seen l from rfl, hsplit [] (Nat.zero_le _), ← hoffs, length_map,
    length_nil, Nat.zero_add]
  split <;> rfl

end Words

section Lines

variable {l input : List UInt8}

theorem readLine_append (hl : ∀ c ∈ l, c ≠ 10) (line tail : List UInt8) :
    readLine (line.take (MAX_LINE - 1)) (l ++ tail) = readLine ((line ++ l).take (MAX_LINE - 1)) tail := by
  induction l generalizing line with
  | nil => rw [nil_append, append_nil]
  | cons c l ih =>
    have hkeep : (if (line.take (MAX_LINE - 1)).length < MAX_LINE - 1 then line.take (MAX_LINE - 1) ++ [c]
        else line.take (MAX_LINE - 1)) = (line ++ [c]).take (MAX_LINE - 1) := by
      split
      · rename_i hlt
        have hle : line.length < MAX_LINE - 1 := by rwa [length_take, min_lt_iff, or_iff_right (lt_irrefl _)] at hlt
        rw [take_of_length_le hle.le, take_of_length_le (by rwa [length_append])]
      · rename_i hge
        rw [take_append_of_le_length (by rw [length_take] at hge; omega)]
    rw [cons_append, readLine, if_neg (hl c mem_cons_self), hkeep, ih fun x hx => hl x (mem_cons_of_mem c hx),
      append_assoc, singleton_append]

theorem lines_append (hl : ∀ c ∈ l, c ≠ 10) (rest : List UInt8) : lines (l ++ 10 :: rest) = l :: lines rest := by
  have hne := splitOnP_ne_nil (· == (10 : UInt8)) rest
  unfold lines splitOn
  rw [splitOnP_append_cons_of_forall_mem (fun c hc => beq_false_of_ne (hl c hc)) 10 rfl, getLast?_cons_of_ne_nil hne,
    dropLast_cons_of_ne_nil hne]
  split <;> rfl

theorem lines_last (hne : l ≠ []) (hl : ∀ c ∈ l, c ≠ 10) : lines l = [l] := by
  unfold lines splitOn
  rw [splitOnP_eq_singleton fun c hc => beq_false_of_ne (hl c hc), if_neg]
  simpa using hne

/-- One turn of the loop reads one line, up to what fits. -/
theorem readLine_line (hne : input ≠ []) : ∃ l rest, readLine [] input = (l.take (MAX_LINE - 1), rest) ∧
    ¬(rest = none ∧ l.take (MAX_LINE - 1) = []) ∧ lines input = l :: lines (rest.getD []) ∧
    (rest.getD []).length < input.length := by
  by_cases hmem : 10 ∈ input
  · obtain ⟨l, rest, rfl, hnot⟩ := eq_append_cons_of_mem hmem
    have hl : ∀ c ∈ l, c ≠ 10 := fun c hc heq => hnot (heq ▸ hc)
    have hread := readLine_append hl [] (10 :: rest)
    refine ⟨l, some rest, hread, nofun, lines_append hl rest, ?_⟩
    rw [length_append, length_cons, Option.getD_some]
    omega
  · have hl : ∀ c ∈ input, c ≠ 10 := fun c hc heq => hmem (heq ▸ hc)
    have hread := readLine_append hl [] []
    rw [append_nil] at hread
    exact ⟨input, none, hread, fun h => by simpa [hne, MAX_LINE] using h.2, lines_last hne hl, length_pos_of_ne_nil hne⟩

theorem readLine_length (line input : List UInt8) (h : line.length < MAX_LINE) : (readLine line input).1.length < MAX_LINE := by
  induction input generalizing line with
  | nil => exact h
  | cons c input ih =>
    rw [readLine]
    split
    · exact h
    · apply ih
      split
      · rw [length_append]
        exact Nat.add_lt_of_lt_sub ‹_›
      · exact h

end Lines

variable (orig : List (List UInt8))

theorem mainFrom_length (failed : Bool) (fuel forks : Nat) (input : List UInt8) :
    ∀ argv ∈ (mainFrom orig failed fuel forks input).1, argv.length < MAXARG := by
  induction fuel generalizing forks input with
  | zero => exact nofun
  | succ fuel ih =>
    rw [mainFrom]
    rcases readLine [] input with ⟨line, rest⟩
    dsimp only
    repeat' split
    case h_2.isFalse.isFalse =>
      refine forall_mem_cons.2 ⟨?_, ih _ _⟩
      rw [length_append]
      exact Nat.lt_of_not_le ‹_›
    all_goals exact nofun

/-- With a failing `read` or fewer forks the first of the commands are run. -/
theorem mainFrom_le (failed : Bool) (fuel forks n : Nat) (input : List UInt8) :
    (mainFrom orig failed fuel forks input).1 <+: (mainFrom orig false fuel (forks + n) input).1 := by
  induction fuel generalizing forks input with
  | zero => exact nil_prefix
  | succ fuel ih =>
    simp only [mainFrom, Bool.false_eq_true, and_false, if_false]
    rcases readLine [] input with ⟨line, rest⟩
    dsimp only
    by_cases hread : rest = none ∧ failed = true
    · rw [if_pos hread]
      exact nil_prefix
    rw [if_neg hread]
    split
    · exact nil_prefix
    cases lineArgv line with
    | none => exact nil_prefix
    | some argv =>
      dsimp only
      split
      · exact nil_prefix
      by_cases hforks : forks = 0
      · rw [if_pos hforks]
        exact nil_prefix
      · rw [if_neg hforks, if_neg (by omega), show forks + n - 1 = forks - 1 + n by omega]
        exact cons_prefix_cons.2 ⟨rfl, ih _ _⟩

theorem mainFrom_eq_iff (fuel n : Nat) (input : List UInt8) (hfuel : input.length < fuel) :
    mainFrom orig false fuel ((lines input).length + n) input = expected orig (lines input) ↔ Fits orig (lines input) := by
  induction fuel generalizing input with
  | zero => exact absurd hfuel (Nat.not_lt_zero _)
  | succ fuel ih =>
    by_cases hne : input = []
    · subst hne
      exact iff_of_true rfl trivial
    · obtain ⟨l, rest, hread, hmore, hlines, hlen⟩ := readLine_line hne
      have ih := ih (rest.getD []) (by omega)
      have hforks : (lines input).length + n ≠ 0 ∧ (lines input).length + n - 1 = (lines (rest.getD [])).length + n := by
        rw [hlines, length_cons]
        omega
      rw [mainFrom, hread]
      simp only [Bool.false_eq_true, and_false, if_false, if_neg hmore, if_neg hforks.1, hforks.2]
      rw [hlines, expected, Fits, lineArgv_take]
      generalize words (seen l) = ws
      by_cases hws : ws.length ≤ MAXARG
      · rw [if_pos hws]
        dsimp only
        by_cases hmany : MAXARG ≤ orig.length + ws.length <;> by_cases hall : MAXARG ≤ orig.length + (words l).length
        · simp [hmany, hall, hws]
        · simp only [hmany, hall, if_true, if_false, Prod.mk.injEq, reduceCtorEq, false_and, false_iff]
          rintro ⟨rfl, -⟩
          exact hall hmany
        · simp [hmany, hall]
        · simp only [hmany, hall, if_false, Prod.mk.injEq, cons.injEq, append_cancel_left_eq, and_assoc]
          rw [← ih, Prod.ext_iff]
      · have hall : ws = words l → MAXARG ≤ orig.length + (words l).length := by
          rintro rfl
          omega
        rw [if_neg hws]
        dsimp only
        split
        · simp [hws]
        · simp only [Prod.mk.injEq, reduceCtorEq, false_and, false_iff]
          exact fun h => absurd (hall h.1) ‹_›

theorem ne_expected {e : Ending} (he : e = .usage ∨ e = .overflow) (ls : List (List UInt8)) : ([], e) ≠ expected orig ls := by
  cases ls with
  | nil => rcases he with rfl | rfl <;> simp [expected]
  | cons l ls =>
    rw [expected]
    split <;> rcases he with rfl | rfl <;> simp

/-- No write leaves `line` or `new_argv`, and `xargs` runs the right commands exactly when there is a command, it fits into
`cmd_argv` and the lines fit. It runs the first of these when `read` or `fork` fails. -/
theorem xargs_runs_iff (orig : List (List UInt8)) (input : List UInt8) (n : Nat) :
    (∀ tail, (readLine [] tail).1.length < MAX_LINE) ∧
    (∀ failed forks, ∀ argv ∈ (main orig failed forks input).1, argv.length < MAXARG) ∧
    (∀ failed forks, (main orig failed forks input).1 <+: (main orig false (forks + n) input).1) ∧
    (main orig false ((lines input).length + n) input = expected orig (lines input) ↔
      orig ≠ [] ∧ orig.length ≤ MAXARG ∧ Fits orig (lines input)) := by
  refine ⟨fun tail => readLine_length [] tail (by decide), ?_⟩
  unfold main
  by_cases hne : orig = []
  · simp only [if_pos hne]
    exact ⟨fun _ _ => nofun, fun _ _ => nil_prefix, iff_of_false (ne_expected orig (Or.inl rfl) _) fun h => h.1 hne⟩
  · simp only [if_neg hne]
    by_cases hmany : MAXARG < orig.length
    · simp only [if_pos hmany]
      exact ⟨fun _ _ => nofun, fun _ _ => nil_prefix, iff_of_false (ne_expected orig (Or.inr rfl) _) fun h => hmany.not_ge h.2.1⟩
    · simp only [if_neg hmany]
      refine ⟨fun failed forks => mainFrom_length orig failed _ forks input,
        fun failed forks => mainFrom_le orig failed _ forks n input, ?_⟩
      rw [mainFrom_eq_iff orig _ n input (Nat.lt_succ_self _)]
      exact ⟨fun h => ⟨hne, Nat.le_of_not_lt hmany, h⟩, fun h => h.2.2⟩

/-- Thirty-three words on one line are stored in the thirty-two places of `line_argv` before they are counted. -/
theorem xargs_overflows : let input := (replicate 33 [97, 32]).flatten
    (main [[101]] false 1 input).2 = .overflow ∧ expected [[101]] (lines input) = ([], .tooMany) := by decide +kernel

end Xv6.Xargs
