import Mathlib.Data.Finset.Card
import Mathlib.Data.Set.Insert
import Mathlib.Logic.Relation

/-! Items handed out to holders a few at a time. A holder who is done with an
item returns it and is not given it again; several may hold the same item. -/
namespace Allotment

variable {Holder Item : Type*}

structure State (Holder Item : Type*) where
  held : Holder → Finset Item
  done : Holder → Set Item

namespace State

variable [DecidableEq Holder] [DecidableEq Item]

def give (s : State Holder Item) (holder : Holder) (items : Finset Item) : State Holder Item :=
  { s with held := Function.update s.held holder (s.held holder ∪ items) }

def finish (s : State Holder Item) (holder : Holder) (item : Item) : State Holder Item where
  held := Function.update s.held holder ((s.held holder).erase item)
  done := Function.update s.done holder (insert item (s.done holder))

end State

section Steps

variable (suits : Holder → Item → Prop) (capacity : Nat)

/-- The item suits the holder, who neither has it nor is done with it. -/
structure Open (s : State Holder Item) (holder : Holder) (item : Item) : Prop where
  suits : suits holder item
  notDone : item ∉ s.done holder
  notHeld : item ∉ s.held holder

variable [DecidableEq Holder] [DecidableEq Item]

inductive Step : State Holder Item → State Holder Item → Prop
  | give {s : State Holder Item} (holder : Holder) (items : Finset Item)
      (hOpen : ∀ item ∈ items, Open suits s holder item)
      (hRoom : items.card ≤ capacity - (s.held holder).card) : Step s (s.give holder items)
  | finish {s : State Holder Item} (holder : Holder) (item : Item) :
      Step s (s.finish holder item)

abbrev Steps : State Holder Item → State Holder Item → Prop :=
  Relation.ReflTransGen (Step suits capacity)

/-- Nobody holds too much, what does not suit, or what is done already. -/
structure Sound (s : State Holder Item) : Prop where
  card_le : ∀ holder, (s.held holder).card ≤ capacity
  suits : ∀ holder, ∀ item ∈ s.held holder, suits holder item
  notDone : ∀ holder, ∀ item ∈ s.held holder, item ∉ s.done holder

variable {suits capacity} {s t : State Holder Item}

theorem Step.sound (hStep : Step suits capacity s t) (hSound : Sound suits capacity s) :
    Sound suits capacity t := by
  cases hStep with
  | give holder items hOpen hRoom =>
      constructor
      case card_le =>
        refine (Function.forall_update_iff s.held fun _ held => held.card ≤ capacity).mpr
          ⟨?_, fun k _ => hSound.card_le k⟩
        have hUnion := Finset.card_union_le (s.held holder) items
        have hOld := hSound.card_le holder
        omega
      case suits =>
        refine (Function.forall_update_iff s.held fun k held => ∀ item ∈ held, suits k item).mpr
          ⟨fun item hMem => ?_, fun k _ => hSound.suits k⟩
        rcases Finset.mem_union.mp hMem with hOld | hNew
        · exact hSound.suits holder item hOld
        · exact (hOpen item hNew).suits
      case notDone =>
        refine (Function.forall_update_iff s.held fun k held => ∀ item ∈ held, item ∉ s.done k).mpr
          ⟨fun item hMem => ?_, fun k _ => hSound.notDone k⟩
        rcases Finset.mem_union.mp hMem with hOld | hNew
        · exact hSound.notDone holder item hOld
        · exact (hOpen item hNew).notDone
  | finish holder item =>
      have hSub : ∀ k, (s.finish holder item).held k ⊆ s.held k :=
        (Function.forall_update_iff s.held fun k held => held ⊆ s.held k).mpr
          ⟨Finset.erase_subset .., fun k _ => Finset.Subset.refl _⟩
      constructor
      case card_le => exact fun k => (Finset.card_le_card (hSub k)).trans (hSound.card_le k)
      case suits => exact fun k other hMem => hSound.suits k other (hSub k hMem)
      case notDone =>
        intro k other hMem hDone
        by_cases hk : k = holder
        · subst hk
          simp only [State.finish, Function.update_self, Set.mem_insert_iff, Finset.mem_erase]
            at hMem hDone
          exact hDone.elim hMem.1 (hSound.notDone k other hMem.2)
        · simp only [State.finish, Function.update_of_ne hk] at hMem hDone
          exact hSound.notDone k other hMem hDone

theorem Steps.sound (hSteps : Steps suits capacity s t) (hSound : Sound suits capacity s) :
    Sound suits capacity t := by
  induction hSteps with
  | refl => exact hSound
  | tail _ hStep ih => exact hStep.sound ih

/-- What a holder has or has had. -/
def State.Seen (s : State Holder Item) (holder : Holder) (item : Item) : Prop :=
  item ∈ s.held holder ∨ item ∈ s.done holder

theorem seen_give {holder k : Holder} {items : Finset Item} {item : Item} :
    (s.give holder items).Seen k item ↔ s.Seen k item ∨ (k = holder ∧ item ∈ items) := by
  by_cases hk : k = holder
  · subst hk
    simp only [State.Seen, State.give, Function.update_self, Finset.mem_union, true_and]
    tauto
  · simp [State.Seen, State.give, hk]

theorem seen_finish {holder k : Holder} {item other : Item} :
    (s.finish holder item).Seen k other ↔ s.Seen k other ∨ (k = holder ∧ other = item) := by
  by_cases hk : k = holder
  · subst hk
    simp only [State.Seen, State.finish, Function.update_self, Finset.mem_erase,
      Set.mem_insert_iff, true_and]
    tauto
  · simp [State.Seen, State.finish, hk]

/-- What is done stays done. -/
theorem Step.done (hStep : Step suits capacity s t) {holder : Holder} {item : Item}
    (hDone : item ∈ s.done holder) : item ∈ t.done holder := by
  cases hStep with
  | give => exact hDone
  | finish k other =>
      by_cases hk : holder = k
      · subst hk
        simp [State.finish, hDone]
      · simpa [State.finish, hk] using hDone

theorem Steps.done (hSteps : Steps suits capacity s t) {holder : Holder} {item : Item}
    (hDone : item ∈ s.done holder) : item ∈ t.done holder := by
  induction hSteps with
  | refl => exact hDone
  | tail _ hStep ih => exact hStep.done ih

/-- Nothing that a holder has seen is forgotten. -/
theorem Step.seen (hStep : Step suits capacity s t) {holder : Holder} {item : Item}
    (hSeen : s.Seen holder item) : t.Seen holder item := by
  cases hStep with
  | give => exact seen_give.mpr (Or.inl hSeen)
  | finish => exact seen_finish.mpr (Or.inl hSeen)

theorem Steps.seen (hSteps : Steps suits capacity s t) {holder : Holder} {item : Item}
    (hSeen : s.Seen holder item) : t.Seen holder item := by
  induction hSteps with
  | refl => exact hSeen
  | tail _ hStep ih => exact hStep.seen ih

variable (suits capacity) in
/-- The holder has as much as there is room for, or has seen all that suits. -/
def Satisfied (s : State Holder Item) (holder : Holder) : Prop :=
  (s.held holder).card = capacity ∨ ∀ item, suits holder item → s.Seen holder item

/-- What another holder is given changes nothing for a holder. -/
theorem satisfied_give_of_ne {holder k : Holder} (hne : k ≠ holder) (items : Finset Item) :
    Satisfied suits capacity (s.give holder items) k ↔ Satisfied suits capacity s k := by
  simp [Satisfied, State.Seen, State.give, hne]

theorem satisfied_finish_of_ne {holder k : Holder} (hne : k ≠ holder) (item : Item) :
    Satisfied suits capacity (s.finish holder item) k ↔ Satisfied suits capacity s k := by
  simp [Satisfied, State.Seen, State.finish, hne]

omit [DecidableEq Holder] [DecidableEq Item] in
/-- A holder with nothing left who was satisfied is done with everything that suits. -/
theorem Satisfied.all_done {holder : Holder} (h : Satisfied suits capacity s holder)
    (hCapacity : 0 < capacity) (hNone : s.held holder = ∅) :
    ∀ item, suits holder item → item ∈ s.done holder := by
  intro item hSuits
  rcases h with hFull | hAll
  · rw [hNone, Finset.card_empty] at hFull
    omega
  · rcases hAll item hSuits with hHeld | hDone
    · rw [hNone] at hHeld
      exact absurd hHeld (Finset.notMem_empty item)
    · exact hDone

end Steps

end Allotment
