import Mathlib.Computability.Language

/-!
# Regular expressions

What a regular expression spells is a language, of words in which backtracking finds a match.
Expressions are put together from classes of symbols by the operations of languages; here are those
that languages lack, and what they spell.
-/

namespace Regexes

open List Language

variable {α : Type}

/-- One symbol of a class. -/
def symbol (class' : α → Bool) : Language α :=
  { word | ∃ a, class' a ∧ word = [a] }

/-- A certain symbol. -/
def lit [DecidableEq α] (a : α) : Language α :=
  symbol (· = a)

/-- One or more. -/
def plus (l : Language α) : Language α :=
  l * KStar.kstar l

/-- One or none. -/
def opt (l : Language α) : Language α :=
  l + 1

variable {l : Language α} {word : List α} {class' : α → Bool}

theorem mem_symbol :
  word ∈ symbol class' ↔ ∃ a, class' a ∧ word = [a]
  := Iff.rfl

theorem mem_lit [DecidableEq α] {a : α} :
  word ∈ lit a ↔ word = [a]
  := by
  rw [lit, mem_symbol]
  simp

theorem mem_lit_mul [DecidableEq α] {a : α} :
  word ∈ lit a * l ↔ ∃ rest ∈ l, word = a :: rest
  := by
  rw [mem_mul]
  constructor
  · rintro ⟨_, hfirst, rest, hrest, rfl⟩
    rw [mem_lit.mp hfirst]
    exact ⟨rest, hrest, rfl⟩
  · rintro ⟨rest, hrest, rfl⟩
    exact ⟨[a], mem_lit.mpr rfl, rest, hrest, rfl⟩

theorem mem_opt :
  word ∈ opt l ↔ word ∈ l ∨ word = []
  := by
  rw [opt, mem_add, mem_one]

theorem mem_plus :
  word ∈ plus l ↔ ∃ parts : List (List α), parts ≠ [] ∧ (∀ part ∈ parts, part ∈ l) ∧
    word = parts.flatten
  := by
  rw [plus, mem_mul]
  constructor
  · rintro ⟨first, hfirst, rest, hrest, rfl⟩
    obtain ⟨parts, rfl, hparts⟩ := mem_kstar.mp hrest
    exact ⟨first :: parts, cons_ne_nil _ _, forall_mem_cons.mpr ⟨hfirst, hparts⟩, rfl⟩
  · rintro ⟨parts, hne, hparts, rfl⟩
    obtain ⟨first, rest, rfl⟩ := exists_cons_of_ne_nil hne
    obtain ⟨hfirst, hrest⟩ := forall_mem_cons.mp hparts
    exact ⟨first, hfirst, _, mem_kstar.mpr ⟨rest, rfl, hrest⟩, rfl⟩

/-- One or more symbols of a class. -/
theorem mem_plus_symbol :
  word ∈ plus (symbol class') ↔ word ≠ [] ∧ ∀ a ∈ word, class' a
  := by
  rw [mem_plus]
  constructor
  · rintro ⟨parts, hne, hparts, rfl⟩
    constructor
    · obtain ⟨first, rest, rfl⟩ := exists_cons_of_ne_nil hne
      obtain ⟨a, -, rfl⟩ := hparts first mem_cons_self
      exact cons_ne_nil _ _
    · intro a ha
      obtain ⟨part, hpart, hmem⟩ := mem_flatten.mp ha
      obtain ⟨b, hb, rfl⟩ := hparts part hpart
      rwa [mem_singleton.mp hmem]
  · rintro ⟨hne, hall⟩
    refine ⟨word.map fun a => [a], by simpa using hne, ?_, ?_⟩
    · intro part hpart
      obtain ⟨a, ha, rfl⟩ := mem_map.mp hpart
      exact ⟨a, hall a ha, rfl⟩
    · rw [← flatMap_def, flatMap_singleton']

/-- Any number of symbols of a class. -/
theorem mem_kstar_symbol :
  word ∈ KStar.kstar (symbol class') ↔ ∀ a ∈ word, class' a
  := by
  cases word with
  | nil => simp [nil_mem_kstar]
  | cons a word =>
    rw [← one_add_self_mul_kstar_eq_kstar, ← plus, mem_add, mem_one,
      mem_plus_symbol]
    simp

/-! ### Symbols that do not occur -/

/-- No word has a certain symbol. -/
def Avoids (l : Language α) (a : α) : Prop :=
  ∀ word ∈ l, a ∉ word

section

variable {l l' : Language α} {a : α}

theorem avoids_symbol (h : class' a = false) :
  Avoids (symbol class') a
  := by
  rintro word ⟨b, hb, rfl⟩ hmem
  rw [← mem_singleton.mp hmem, h] at hb
  cases hb

theorem avoids_lit [DecidableEq α] {b : α} (h : a ≠ b) :
  Avoids (lit b) a
  := avoids_symbol (by simpa using h)

theorem Avoids.mul (h : Avoids l a) (h' : Avoids l' a) :
  Avoids (l * l') a
  := by
  intro word hword
  obtain ⟨u, hu, v, hv, rfl⟩ := mem_mul.mp hword
  rw [mem_append, not_or]
  exact ⟨h u hu, h' v hv⟩

theorem Avoids.plus (h : Avoids l a) :
  Avoids (plus l) a
  := by
  intro word hword hmem
  obtain ⟨parts, -, hparts, rfl⟩ := mem_plus.mp hword
  obtain ⟨part, hpart, hmem⟩ := mem_flatten.mp hmem
  exact h part (hparts part hpart) hmem

theorem Avoids.opt (h : Avoids l a) :
  Avoids (opt l) a
  := by
  intro word hword
  rcases mem_opt.mp hword with hword | rfl
  · exact h word hword
  · exact not_mem_nil

theorem Avoids.add (h : Avoids l a) (h' : Avoids l' a) :
  Avoids (l + l') a
  := by
  rintro word (hword | hword)
  · exact h word hword
  · exact h' word hword

theorem Avoids.kstar (h : Avoids l a) :
  Avoids (KStar.kstar l) a
  := by
  intro word hword hmem
  obtain ⟨parts, rfl, hparts⟩ := mem_kstar.mp hword
  obtain ⟨part, hpart, hmem⟩ := mem_flatten.mp hmem
  exact h part (hparts part hpart) hmem

end

end Regexes
