import Mathlib.Data.List.Basic
import Mathlib.Tactic.Common

/-!
# Cancelling letters along wires

The letters of a word act on wires.  Some letters look back along one of
their wires, and such a letter is cancelled with the nearest letter there,
if the two are the same.  Words are read from the left; what has been read
is kept as a list with the nearest letter first.

Unlike for words with one wire, what is left over need not be reduced.  A
cancelled letter may have stood between two letters that are the same, on
another of its wires: then these meet, and none of the two looks back any
more.  The file counts the pairs that are brought together and those that
are taken apart again, and their difference is what is left over.
-/

namespace MQSSPasses.General.WireReduction

/-- Letters, the wires they act on and the wire along which they look. -/
structure Alphabet (Letter Wire : Type) where
  names : Letter → Wire → Bool
  looks : Letter → Option Wire
  same : Letter → Letter → Bool
  names_of_looks :
    ∀ {letter wire}, looks letter = some wire → names letter wire = true
  looks_of_same :
    ∀ {first second}, same first second = true →
      looks first = looks second

/-- The place of a letter among earlier ones, the nearest first. -/
structure Meeting (Letter : Type) where
  near : List Letter
  letter : Letter
  far : List Letter

namespace Alphabet

variable {Letter Wire : Type} (alphabet : Alphabet Letter Wire)

/-! ## Reading a word -/

/-- The nearest letter on a wire. -/
def meets (wire : Wire) : List Letter → Option (Meeting Letter)
  | [] => none
  | letter :: far =>
      if alphabet.names letter wire then some ⟨[], letter, far⟩
      else
        (meets wire far).map fun meeting =>
          { meeting with near := letter :: meeting.near }

/-- The letter that a letter is cancelled with. -/
def partner (past : List Letter) (letter : Letter) :
    Option (Meeting Letter) :=
  match alphabet.looks letter with
  | none => none
  | some wire =>
      (alphabet.meets wire past).filter fun meeting =>
        alphabet.same meeting.letter letter

/-- What is left after reading one more letter. -/
def step (past : List Letter) (letter : Letter) : List Letter :=
  match alphabet.partner past letter with
  | none => letter :: past
  | some meeting => meeting.near ++ meeting.far

/-- What is left after reading a word. -/
def reduce (past word : List Letter) : List Letter :=
  word.foldl alphabet.step past

/-- The number of letters that could still be cancelled. -/
def leftovers : List Letter → ℕ
  | [] => 0
  | letter :: past =>
      leftovers past + (alphabet.partner past letter).isSome.toNat

/-! ## Meetings -/

variable {alphabet}

theorem meets_eq_some {wire : Wire} {past : List Letter}
    {meeting : Meeting Letter} :
    alphabet.meets wire past = some meeting ↔
      past = meeting.near ++ meeting.letter :: meeting.far ∧
        alphabet.names meeting.letter wire = true ∧
        ∀ letter ∈ meeting.near, alphabet.names letter wire = false := by
  induction past generalizing meeting with
  | nil => simp [meets]
  | cons letter far induction =>
      rcases meeting with ⟨near, found, rest⟩
      rw [meets]
      by_cases named : alphabet.names letter wire = true
      · rw [if_pos named, Option.some.injEq, Meeting.mk.injEq]
        constructor
        · rintro ⟨rfl, rfl, rfl⟩
          exact ⟨rfl, named, by simp⟩
        · rintro ⟨split, -, unnamed⟩
          cases near with
          | nil =>
              rw [List.nil_append, List.cons.injEq] at split
              exact ⟨rfl, split.1, split.2⟩
          | cons first others =>
              rw [List.cons_append, List.cons.injEq] at split
              have missing := unnamed first List.mem_cons_self
              rw [← split.1, named] at missing
              cases missing
      · rw [if_neg named, Option.map_eq_some_iff]
        constructor
        · rintro ⟨meeting, met, equal⟩
          cases equal
          rcases induction.mp met with ⟨split, holds, unnamed⟩
          refine ⟨by rw [split]; rfl, holds, ?_⟩
          rw [List.forall_mem_cons]
          exact ⟨Bool.eq_false_iff.mpr named, unnamed⟩
        · rintro ⟨split, holds, unnamed⟩
          cases near with
          | nil =>
              rw [List.nil_append, List.cons.injEq] at split
              rw [split.1] at named
              exact absurd holds named
          | cons first others =>
              rw [List.cons_append, List.cons.injEq] at split
              rw [List.forall_mem_cons] at unnamed
              refine ⟨⟨others, found, rest⟩, ?_, by rw [split.1]⟩
              exact induction.mpr ⟨split.2, holds, unnamed.2⟩

theorem meets_eq_none {wire : Wire} {past : List Letter} :
    alphabet.meets wire past = none ↔
      ∀ letter ∈ past, alphabet.names letter wire = false := by
  induction past with
  | nil => simp [meets]
  | cons letter far induction =>
      rw [meets, List.forall_mem_cons, ← induction]
      by_cases named : alphabet.names letter wire = true
      · simp [named]
      · simp [named]

theorem partner_eq_some {past : List Letter} {letter : Letter}
    {meeting : Meeting Letter} :
    alphabet.partner past letter = some meeting ↔
      ∃ wire, alphabet.looks letter = some wire ∧
        alphabet.meets wire past = some meeting ∧
        alphabet.same meeting.letter letter = true := by
  unfold partner
  cases alphabet.looks letter with
  | none => simp
  | some wire => simp [Option.filter_eq_some_iff]

/-! ## Cancelling one letter -/

variable (alphabet)

/-- The letters next to a cancelled one that then meet the same letter. -/
def exposed (cancelled : Letter) (far : List Letter) :
    List Letter → ℕ
  | [] => 0
  | letter :: older =>
      exposed cancelled far older +
        (match alphabet.looks letter with
        | none => false
        | some wire =>
            alphabet.names cancelled wire &&
              (alphabet.meets wire older).isNone &&
              (alphabet.partner far letter).isSome).toNat

variable {alphabet}

/-- A letter in front of whose wire there is another letter meets that. -/
theorem meets_append_of_some {wire : Wire} {older : List Letter}
    {meeting : Meeting Letter}
    (met : alphabet.meets wire older = some meeting)
    (further : List Letter) :
    alphabet.meets wire (older ++ further) =
      some { meeting with far := meeting.far ++ further } := by
  rcases meets_eq_some.mp met with ⟨split, named, unnamed⟩
  refine meets_eq_some.mpr ⟨?_, named, unnamed⟩
  rw [split]
  simp

theorem meets_append_of_none {wire : Wire} {older : List Letter}
    (none : alphabet.meets wire older = none) (further : List Letter) :
    alphabet.meets wire (older ++ further) =
      (alphabet.meets wire further).map fun meeting =>
        { meeting with near := older ++ meeting.near } := by
  induction older with
  | nil => simp
  | cons letter older induction =>
      rw [meets_eq_none, List.forall_mem_cons] at none
      rw [List.cons_append, meets, if_neg (by simp [none.1]),
        induction (meets_eq_none.mpr none.2), Option.map_map]
      rfl

/-- Whether a letter has a partner, by the nearest letter on its wire. -/
theorem isSome_partner {letter : Letter} {wire : Wire}
    (looks : alphabet.looks letter = some wire) (past : List Letter) :
    (alphabet.partner past letter).isSome =
      ((alphabet.meets wire past).map Meeting.letter).any fun earlier =>
        alphabet.same earlier letter := by
  rw [partner, looks]
  dsimp only
  cases alphabet.meets wire past with
  | none => rfl
  | some meeting =>
      cases same : alphabet.same meeting.letter letter <;>
        simp [Option.filter, same]

/-- What cancelling an earlier letter means to a letter behind it. -/
theorem isSome_partner_cancelled {letter cancelled : Letter}
    {wire followed : Wire} (looks : alphabet.looks letter = some wire)
    (follows : alphabet.looks cancelled = some followed)
    (unnamed : alphabet.names letter followed = false)
    (older far : List Letter) :
    (alphabet.partner (older ++ far) letter).isSome.toNat =
      (alphabet.partner (older ++ cancelled :: far) letter).isSome.toNat +
        (alphabet.names cancelled wire &&
          (alphabet.meets wire older).isNone &&
          (alphabet.partner far letter).isSome).toNat := by
  rw [isSome_partner looks, isSome_partner looks, isSome_partner looks]
  cases met : alphabet.meets wire older with
  | some meeting =>
      rw [meets_append_of_some met, meets_append_of_some met]
      simp
  | none =>
      rw [meets_append_of_none met, meets_append_of_none met, meets]
      by_cases named : alphabet.names cancelled wire = true
      · -- The cancelled letter looks along another wire.
        have differs : alphabet.same cancelled letter = false := by
          rw [Bool.eq_false_iff]
          intro same
          have equal := alphabet.looks_of_same same
          rw [follows, looks, Option.some.injEq] at equal
          rw [equal, alphabet.names_of_looks looks] at unnamed
          cases unnamed
        rw [if_pos named]
        simp [named, differs, Function.comp_def]
      · rw [if_neg named]
        simp [named, Function.comp_def]

/-- A cancelled letter parts one pair at most and brings others together. -/
theorem leftovers_cancelled {cancelled : Letter} {followed : Wire}
    (follows : alphabet.looks cancelled = some followed)
    {near : List Letter}
    (unnamed : ∀ letter ∈ near, alphabet.names letter followed = false)
    (far : List Letter) :
    alphabet.leftovers (near ++ far) +
        (alphabet.partner far cancelled).isSome.toNat =
      alphabet.leftovers (near ++ cancelled :: far) +
        alphabet.exposed cancelled far near := by
  induction near with
  | nil => rfl
  | cons letter older induction =>
      rw [List.forall_mem_cons] at unnamed
      have earlier := induction unnamed.2
      rw [List.cons_append, List.cons_append, leftovers, leftovers, exposed]
      cases looks : alphabet.looks letter with
      | none =>
          have alone (past : List Letter) :
              (alphabet.partner past letter).isSome = false := by
            rw [partner, looks]
            rfl
          rw [alone, alone]
          simpa using earlier
      | some wire =>
          have met :=
            isSome_partner_cancelled looks follows unnamed.1 older far
          dsimp only
          omega

/-! ## Whole words -/

variable (alphabet)

/-- The pairs that reading a letter brings together. -/
def exposures (past : List Letter) (letter : Letter) : ℕ :=
  match alphabet.partner past letter with
  | none => 0
  | some meeting =>
      alphabet.exposed meeting.letter meeting.far meeting.near

/-- The pairs that reading a letter takes apart: one or none. -/
def separations (past : List Letter) (letter : Letter) : ℕ :=
  match alphabet.partner past letter with
  | none => 0
  | some meeting =>
      (alphabet.partner meeting.far meeting.letter).isSome.toNat

/-- The sum of what happens at the letters of a word. -/
def total (count : List Letter → Letter → ℕ) :
    List Letter → List Letter → ℕ
  | _, [] => 0
  | past, letter :: word =>
      count past letter + total count (alphabet.step past letter) word

variable {alphabet}

variable (alphabet) in
/-- Reading one letter. -/
theorem leftovers_step (past : List Letter) (letter : Letter) :
    alphabet.leftovers (alphabet.step past letter) +
        alphabet.separations past letter =
      alphabet.leftovers past + alphabet.exposures past letter := by
  unfold step separations exposures
  cases found : alphabet.partner past letter with
  | none => simp [leftovers, found]
  | some meeting =>
      rcases partner_eq_some.mp found with ⟨wire, looks, met, same⟩
      rcases meets_eq_some.mp met with ⟨split, -, unnamed⟩
      have follows : alphabet.looks meeting.letter = some wire := by
        rw [alphabet.looks_of_same same, looks]
      dsimp only
      rw [split]
      exact leftovers_cancelled follows unnamed meeting.far

variable (alphabet) in
/-- What is left over is what was brought together and not separated. -/
theorem leftovers_reduce (past word : List Letter) :
    alphabet.leftovers (alphabet.reduce past word) +
        alphabet.total alphabet.separations past word =
      alphabet.leftovers past +
        alphabet.total alphabet.exposures past word := by
  induction word generalizing past with
  | nil => rfl
  | cons letter word induction =>
      have first := leftovers_step alphabet past letter
      have rest := induction (alphabet.step past letter)
      rw [reduce, List.foldl_cons, ← reduce, total, total]
      omega

/-- A word is reduced exactly if all that met was separated. -/
theorem leftovers_reduce_eq_zero_iff (word : List Letter) :
    alphabet.leftovers (alphabet.reduce [] word) = 0 ↔
      alphabet.total alphabet.exposures [] word =
        alphabet.total alphabet.separations [] word := by
  have balance := leftovers_reduce alphabet [] word
  rw [leftovers] at balance
  omega

end Alphabet

end MQSSPasses.General.WireReduction
