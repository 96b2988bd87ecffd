import CICJudging.Database.SortedTree

/-! Removal from the tree of the children of a node. A red is carried down to the
removed place; what comes back has the same black depth. -/
namespace CICJudging

open SortedEntries (Sorted)

namespace FLLRBNode

universe u v

variable {K : Type u} {V : Type v}

def moveRedLeft (n : FLLRBNode K V) : FLLRBNode K V :=
  let n := n.colorFlip
  if n.right.left.isRed then
    let n := n.copyWith none none none none (some n.right.rotateRight)
    n.rotateLeft.colorFlip
  else n

def moveRedRight (n : FLLRBNode K V) : FLLRBNode K V :=
  let n := n.colorFlip
  if n.left.left.isRed then n.rotateRight.colorFlip else n

/-- The key and the value of the leftmost node. -/
def min : FLLRBNode K V → Option (K × V)
  | empty => none
  | node _ left key value _ => if left.isEmpty then some (key, value) else left.min

/-- Before a step to the left. -/
def leftReady (n : FLLRBNode K V) : FLLRBNode K V :=
  if !n.left.isEmpty && !n.left.isRed && !n.left.left.isRed then n.moveRedLeft else n

/-- Before a step to the right. -/
def rightReady (n : FLLRBNode K V) : FLLRBNode K V :=
  let n := if n.left.isRed then n.rotateRight else n
  if !n.right.isEmpty && !n.right.isRed && !n.right.left.isRed then n.moveRedRight else n

/-- After a step to the left. -/
def withLeft (n l : FLLRBNode K V) : FLLRBNode K V :=
  fixUp (n.copyWith none none none (some l) none)

/-- After a step to the right. -/
def withRight (n r : FLLRBNode K V) : FLLRBNode K V :=
  fixUp (n.copyWith none none none none (some r))

/-- The bound is the count of the tree. -/
def removeMin : Nat → FLLRBNode K V → FLLRBNode K V
  | 0, n => n
  | fuel + 1, n =>
      if n.left.isEmpty then empty
      else
        let n := if !n.left.isRed && !n.left.left.isRed then n.moveRedLeft else n
        n.withLeft (removeMin fuel n.left)

def key? : FLLRBNode K V → Option K
  | empty => none
  | node _ _ key _ _ => some key

section Remove

variable (cmp : K → K → Ordering) (aKey : K)

/-- A key that ties is overwritten by the next one, which is removed from the right;
the key itself is looked for there all the same. -/
def remove : Nat → FLLRBNode K V → FLLRBNode K V
  | 0, n => n
  | _ + 1, empty => empty
  | fuel + 1, node red left key value right =>
      let n := node red left key value right
      if cmp aKey key = .lt then
        let n := n.leftReady
        n.withLeft (remove fuel n.left)
      else
        let n := n.rightReady
        if n.key?.any fun key => cmp aKey key == .eq then
          if n.right.isEmpty then empty
          else
            let smallest := n.right.min
            let n := n.copyWith (smallest.map Prod.fst) (smallest.map Prod.snd) none none
              (some (removeMin fuel n.right))
            n.withRight (remove fuel n.right)
        else n.withRight (remove fuel n.right)

end Remove

section Shape

variable {l r : FLLRBNode K V} {k k₁ k₂ k₃ : K} {v v₁ v₂ v₃ : V} {c : Bool}
  {a b a' b' : FLLRBNode K V}

theorem moveRedLeft_flip (hRight : a'.isRed = false) :
    moveRedLeft (node c (node false a k₁ v₁ b) k v (node false a' k₂ v₂ b')) =
      node (!c) (node true a k₁ v₁ b) k v (node true a' k₂ v₂ b') := by
  simp [moveRedLeft, colorFlip, copyWith, hRight]

theorem moveRedLeft_turn :
    moveRedLeft (node c (node false a k₁ v₁ b) k v (node false (node true l k₃ v₃ r) k₂ v₂ b')) =
      node c (node false (node true a k₁ v₁ b) k v l) k₃ v₃ (node false r k₂ v₂ b') := by
  simp [moveRedLeft, colorFlip, copyWith, rotateRight, rotateLeft]

theorem moveRedRight_flip (hLeft : a.isRed = false) :
    moveRedRight (node c (node false a k₁ v₁ b) k v (node false a' k₂ v₂ b')) =
      node (!c) (node true a k₁ v₁ b) k v (node true a' k₂ v₂ b') := by
  simp [moveRedRight, colorFlip, copyWith, hLeft]

theorem moveRedRight_turn :
    moveRedRight (node c (node false (node true l k₃ v₃ r) k₁ v₁ b) k v (node false a' k₂ v₂ b')) =
      node c (node false l k₃ v₃ r) k₁ v₁ (node false b k v (node true a' k₂ v₂ b')) := by
  simp [moveRedRight, colorFlip, copyWith, rotateRight]

theorem rotateRight_node : rotateRight (node c (node true a k₁ v₁ b) k v r) =
    node c a k₁ v₁ (node true b k v r) := rfl

end Shape

/-- A red to carry down: the root is red, or its left child is. -/
inductive Loaded : Bool → Nat → FLLRBNode K V → Prop where
  | red {h : Nat} {l r : FLLRBNode K V} {k : K} {v : V} :
      Balanced false h l → Balanced false h r → Loaded true h (node true l k v r)
  | leftRed {h : Nat} {l r : FLLRBNode K V} {k : K} {v : V} :
      Balanced true h l → Balanced false h r → Loaded false (h + 1) (node false l k v r)

/-- The black depth is kept, and a black root stays black. -/
def Removed (c : Bool) (h : Nat) (n : FLLRBNode K V) : Prop :=
  ∃ c', Balanced c' h n ∧ (c = false → c' = false)

/-- Empty, or with a red at the root or left of it. -/
def Near (n : FLLRBNode K V) : Prop :=
  n.isEmpty = true ∨ n.isRed = true ∨ n.left.isRed = true

/-- Ready for a step to the left without a red to carry. -/
def Loose (n : FLLRBNode K V) : Prop :=
  n.isRed = true ∨ n.left.isEmpty = true ∨ n.left.isRed = true ∨ n.left.left.isRed = true

theorem Near.loose {n : FLLRBNode K V} (h : Near n) : Loose n := by
  rcases h with hEmpty | hRed | hLeft
  · cases n with
    | empty => exact .inr (.inl rfl)
    | node => cases hEmpty
  · exact .inl hRed
  · exact .inr (.inr (.inl hLeft))

section Left

variable {n m l r : FLLRBNode K V} {c c' : Bool} {h h' : Nat} {rest : List (K × V)}

theorem count_eq_length (n : FLLRBNode K V) : n.count = n.entries.length := by
  induction n with
  | empty => rfl
  | node red l k v r ihLeft ihRight =>
      rw [count, entries, List.length_append, List.length_cons, ihLeft, ihRight]
      omega

/-- A step to the left visits a child that is loaded, the entries after it stay, and
whatever comes back from the child is fixed up. -/
structure StepsLeft (c : Bool) (h : Nat) (front back : List (K × V)) (m : FLLRBNode K V)
    (rebuild : FLLRBNode K V → FLLRBNode K V) (c' : Bool) (h' : Nat) (rest : List (K × V)) :
    Prop where
  loaded : Loaded c' h' m
  entries : front ++ back = m.entries ++ rest
  nonempty : rest ≠ []
  later : rest <:+ back
  rebuilt : ∀ l, (rebuild l).entries = l.entries ++ rest
  removed : ∀ l, Removed c' h' l → Removed c h (rebuild l)
  near : ∀ l, Removed c' h' l → c = true → Near (rebuild l)
  carried : c = false → c' = true
  loose : c = false → ∀ l, Removed c' h' l → Near l → Loose (rebuild l)

theorem StepsLeft.count_lt {front back : List (K × V)} {rebuild : FLLRBNode K V → FLLRBNode K V}
    (hStep : StepsLeft c h front back m rebuild c' h' rest) : m.count < (front ++ back).length := by
  have hRest := List.length_pos_of_ne_nil hStep.nonempty
  rw [count_eq_length, hStep.entries, List.length_append]
  omega

theorem withLeft_node {k : K} {v : V} : withLeft (node c l k v r) m = fixUp (node c m k v r) := rfl

theorem entries_withLeft {k : K} {v : V} :
    (withLeft (node c l k v r) m).entries = m.entries ++ (k, v) :: r.entries :=
  entries_fixUp _

theorem Balanced.loaded (hBalanced : Balanced true h n) : Loaded true h n := by
  obtain _ | ⟨hLeft, hRight⟩ := hBalanced
  exact .red hLeft hRight

/-- The left child is red. -/
theorem stepsLeft_leftRed {k : K} {v : V} (hLeft : Balanced true h l) (hRight : Balanced false h r) :
    StepsLeft false (h + 1) l.entries ((k, v) :: r.entries) l (withLeft (node false l k v r)) true
      h ((k, v) :: r.entries) where
  loaded := hLeft.loaded
  entries := rfl
  nonempty := List.cons_ne_nil _ _
  later := List.suffix_rfl
  rebuilt l := entries_withLeft
  removed := by
    rintro l ⟨c', hNew, -⟩
    rw [withLeft_node, fixUp_balanced hNew hRight rfl]
    exact ⟨false, .black hNew hRight, fun _ => rfl⟩
  near := by
    rintro l - ⟨⟩
  carried _ := rfl
  loose := by
    rintro - l ⟨c', hNew, -⟩ hNear
    rw [withLeft_node, fixUp_balanced hNew hRight rfl]
    exact .inr hNear

/-- The root is red, and the left child has a red left child. -/
theorem stepsLeft_carry {k : K} {v : V} (hLeft : Loaded false h l) (hRight : Balanced false h r) :
    StepsLeft true h l.entries ((k, v) :: r.entries) l (withLeft (node true l k v r)) false h
      ((k, v) :: r.entries) where
  loaded := hLeft
  entries := rfl
  nonempty := List.cons_ne_nil _ _
  later := List.suffix_rfl
  rebuilt l := entries_withLeft
  removed := by
    rintro l ⟨c', hNew, hBlack⟩
    cases hBlack rfl
    rw [withLeft_node, fixUp_balanced hNew hRight rfl]
    exact ⟨true, .red hNew hRight, nofun⟩
  near := by
    rintro l ⟨c', hNew, hBlack⟩ -
    rw [withLeft_node, fixUp_balanced hNew hRight rfl]
    exact .inr (.inl rfl)
  carried := nofun
  loose := nofun

/-- The root is red, and neither child has a red child: both become red. -/
theorem stepsLeft_flip {a b : FLLRBNode K V} {k k₁ : K} {v v₁ : V} (hLeft : Balanced true h l)
    (hInner : Balanced false h a) (hOuter : Balanced false h b) :
    StepsLeft true (h + 1) l.entries ((k, v) :: (node false a k₁ v₁ b).entries) l
      (withLeft (node false l k v (node true a k₁ v₁ b))) true h
      ((k, v) :: (node false a k₁ v₁ b).entries) where
  loaded := hLeft.loaded
  entries := rfl
  nonempty := List.cons_ne_nil _ _
  later := List.suffix_rfl
  rebuilt l := entries_withLeft
  removed := by
    rintro l ⟨c', hNew, -⟩
    cases c' with
    | true =>
        obtain _ | ⟨hFirst, hSecond⟩ := hNew
        rw [withLeft_node, fixUp_flip hFirst.isRed]
        exact ⟨true, .red (.black hFirst hSecond) (.black hInner hOuter), nofun⟩
    | false =>
        rw [withLeft_node, fixUp_lean hNew.isRed hOuter.isRed]
        exact ⟨false, .black (.red hNew hInner) hOuter, fun _ => rfl⟩
  near := by
    rintro l ⟨c', hNew, -⟩ -
    cases c' with
    | true =>
        obtain _ | ⟨hFirst, hSecond⟩ := hNew
        rw [withLeft_node, fixUp_flip hFirst.isRed]
        exact .inr (.inl rfl)
    | false =>
        rw [withLeft_node, fixUp_lean hNew.isRed hOuter.isRed]
        exact .inr (.inr rfl)
  carried := nofun
  loose := nofun

/-- The root is red, and the right child has a red left child, which is turned over
to the left. -/
theorem stepsLeft_turn {a b d : FLLRBNode K V} {k k₁ k₂ : K} {v v₁ v₂ : V}
    (hLeft : Balanced true h l) (hFirst : Balanced false h a) (hSecond : Balanced false h b)
    (hOuter : Balanced false h d) :
    StepsLeft true (h + 1) l.entries
      ((k, v) :: (node false (node true a k₁ v₁ b) k₂ v₂ d).entries)
      (node false l k v a)
      (withLeft (node true (node false l k v a) k₁ v₁ (node false b k₂ v₂ d))) false (h + 1)
      ((k₁, v₁) :: (node false b k₂ v₂ d).entries) where
  loaded := .leftRed hLeft hFirst
  entries := by simp [entries]
  nonempty := List.cons_ne_nil _ _
  later := ⟨(k, v) :: a.entries, by simp [entries]⟩
  rebuilt l := entries_withLeft
  removed := by
    rintro l ⟨c', hNew, hBlack⟩
    cases hBlack rfl
    rw [withLeft_node, fixUp_balanced hNew (.black hSecond hOuter) rfl]
    exact ⟨true, .red hNew (.black hSecond hOuter), nofun⟩
  near := by
    rintro l ⟨c', hNew, hBlack⟩ -
    rw [withLeft_node, fixUp_balanced hNew (.black hSecond hOuter) rfl]
    exact .inr (.inl rfl)
  carried := nofun
  loose := nofun

theorem Loaded.stepsLeft {color : Bool} {k : K} {v : V} (hLoaded : Loaded c h (node color l k v r))
    (hLeft : l.isEmpty = false) :
    ∃ c' h' rest, StepsLeft c h l.entries ((k, v) :: r.entries) (node color l k v r).leftReady.left
      (withLeft (node color l k v r).leftReady) c' h' rest := by
  cases hLoaded with
  | @leftRed h l r k v hRed hRight =>
      have hReady : leftReady (node false l k v r) = node false l k v r := by
        simp [leftReady, hRed.isRed]
      rw [hReady]
      exact ⟨_, _, _, stepsLeft_leftRed hRed hRight⟩
  | @red h l r k v hBlack hRight =>
      cases hBlack with
      | empty => cases hLeft
      | @black c h a b k₁ v₁ hFirst hSecond =>
          cases c with
          | true =>
              have hReady : leftReady (node true (node false a k₁ v₁ b) k v r) =
                  node true (node false a k₁ v₁ b) k v r := by
                simp [leftReady, hFirst.isRed]
              rw [hReady]
              exact ⟨_, _, _, stepsLeft_carry (.leftRed hFirst hSecond) hRight⟩
          | false =>
              obtain _ | _ | @⟨cr, h, a', b', k₂, v₂, hInner, hOuter⟩ := hRight
              have hReady (right : FLLRBNode K V) :
                  leftReady (node true (node false a k₁ v₁ b) k v right) =
                    moveRedLeft (node true (node false a k₁ v₁ b) k v right) := by
                simp [leftReady, hFirst.isRed]
              have hRed : Balanced true h (node true a k₁ v₁ b) := .red hFirst hSecond
              cases cr with
              | false =>
                  rw [hReady, moveRedLeft_flip hInner.isRed]
                  exact ⟨_, _, _, stepsLeft_flip hRed hInner hOuter⟩
              | true =>
                  obtain _ | ⟨hLow, hHigh⟩ := hInner
                  rw [hReady, moveRedLeft_turn]
                  exact ⟨_, _, _, stepsLeft_turn hRed hLow hHigh hOuter⟩

end Left

section Minimum

variable {n : FLLRBNode K V} {c : Bool} {h : Nat}

theorem Loaded.entries_ne_nil (hLoaded : Loaded c h n) : n.entries ≠ [] := by
  cases hLoaded <;> simp [entries]

theorem Loaded.eq_node (hLoaded : Loaded c h n) : ∃ color l k v r, n = node color l k v r := by
  cases hLoaded <;> exact ⟨_, _, _, _, _, rfl⟩

theorem min_eq_head (n : FLLRBNode K V) : n.min = n.entries.head? := by
  induction n with
  | empty => rfl
  | node red l k v r ihLeft _ =>
      rw [min, entries]
      cases l with
      | empty => rfl
      | node =>
          rw [isEmpty_node, if_neg Bool.false_ne_true, ihLeft, List.head?_append]
          simp [entries]

/-- What removeMin leaves. -/
structure MinRemoved (c : Bool) (h : Nat) (n out : FLLRBNode K V) : Prop where
  removed : Removed c h out
  entries : out.entries = n.entries.tail
  near : c = true → Near out
  loose : Loose out

theorem removeMin_succ {fuel : Nat} (hLeft : n.left.isEmpty = false) :
    removeMin (fuel + 1) n = n.leftReady.withLeft (removeMin fuel n.leftReady.left) := by
  rw [removeMin, hLeft, if_neg Bool.false_ne_true, leftReady, hLeft]
  rfl

theorem Loaded.removeMin {fuel : Nat} (hLoaded : Loaded c h n) (hFuel : n.count ≤ fuel) :
    MinRemoved c h n (removeMin fuel n) := by
  induction fuel generalizing n c h with
  | zero =>
      rw [count_eq_length, Nat.le_zero, List.length_eq_zero_iff] at hFuel
      exact absurd hFuel hLoaded.entries_ne_nil
  | succ fuel ih =>
      by_cases hLeft : n.left.isEmpty = true
      · rw [FLLRBNode.removeMin, if_pos hLeft]
        cases hLoaded with
        | red hBlack hRight =>
            cases hBlack with
            | black => cases hLeft
            | empty =>
                cases hRight
                exact ⟨⟨false, .empty, nofun⟩, rfl, fun _ => .inl rfl, .inr (.inl rfl)⟩
        | leftRed hRed hRight =>
            cases hRed
            cases hLeft
      · rw [Bool.not_eq_true] at hLeft
        rw [removeMin_succ hLeft]
        obtain ⟨color, l, k, v, r, rfl⟩ := hLoaded.eq_node
        obtain ⟨c', h', rest, hStep⟩ := hLoaded.stepsLeft hLeft
        have hCount : (node color l k v r).leftReady.left.count ≤ fuel := by
          rw [count_eq_length] at hFuel
          exact Nat.lt_succ_iff.mp (Nat.lt_of_lt_of_le hStep.count_lt hFuel)
        have hMin := ih hStep.loaded hCount
        have hNear (hRed : c = true) := hStep.near _ hMin.removed hRed
        refine ⟨hStep.removed _ hMin.removed, ?_, hNear, ?_⟩
        · rw [hStep.rebuilt, hMin.entries, FLLRBNode.entries, hStep.entries,
            List.tail_append_of_ne_nil hStep.loaded.entries_ne_nil]
        · cases c with
          | true => exact (hNear rfl).loose
          | false => exact hStep.loose rfl _ hMin.removed (hMin.near (hStep.carried rfl))

end Minimum

section Right

variable {cmp : K → K → Ordering} {aKey : K} {n l r : FLLRBNode K V} {c c' : Bool} {h h' : Nat}

/-- Where a key is removed: at a loaded tree, or where the red is on the right and the
key is not smaller than the root's. -/
inductive Descent (cmp : K → K → Ordering) (aKey : K) : Bool → Nat → FLLRBNode K V → Prop where
  | loaded {c : Bool} {h : Nat} {n : FLLRBNode K V} : Loaded c h n → Descent cmp aKey c h n
  | rightRed {h : Nat} {l r : FLLRBNode K V} {k : K} {v : V} :
      Balanced false h l → Balanced true h r → cmp aKey k ≠ .lt →
        Descent cmp aKey false (h + 1) (node false l k v r)

/-- A step to the right visits a child that is loaded, or one whose red is on the right
and whose keys are the larger ones, and fixes up whatever comes back. -/
structure StepsRight (cmp : K → K → Ordering) (aKey : K) (c : Bool) (h : Nat)
    (whole : List (K × V)) (color : Bool) (l : FLLRBNode K V) (k : K) (v : V)
    (r : FLLRBNode K V) (c' : Bool) (h' : Nat) : Prop where
  entries : whole = l.entries ++ (k, v) :: r.entries
  key : cmp aKey k ≠ .lt
  visited : Loaded c' h' r ∨ cmp aKey k = .gt ∧ Descent cmp aKey c' h' r
  removed : ∀ key value out, Removed c' h' out → Removed c h (fixUp (node color l key value out))

theorem Balanced.withRight_red {k : K} {v : V} (hLeft : Balanced false h l)
    (hNew : Removed false h r) : Removed true h (fixUp (node true l k v r)) := by
  obtain ⟨c', hRight, hBlack⟩ := hNew
  cases hBlack rfl
  rw [fixUp_balanced hLeft hRight rfl]
  exact ⟨true, .red hLeft hRight, nofun⟩

theorem Balanced.withRight_black {k : K} {v : V} (hLeft : Balanced c h l)
    (hNew : Removed true h r) : Removed c (h + 1) (fixUp (node false l k v r)) := by
  obtain ⟨c', hRight, -⟩ := hNew
  cases c' with
  | false =>
      rw [fixUp_balanced hLeft hRight rfl]
      exact ⟨false, .black hLeft hRight, fun _ => rfl⟩
  | true =>
      obtain _ | ⟨hInner, hOuter⟩ := hRight
      cases c with
      | false =>
          rw [fixUp_lean hLeft.isRed hOuter.isRed]
          exact ⟨false, .black (.red hLeft hInner) hOuter, fun _ => rfl⟩
      | true =>
          obtain _ | ⟨hFirst, hSecond⟩ := hLeft
          rw [fixUp_flip hFirst.isRed]
          exact ⟨true, .red (.black hFirst hSecond) (.black hInner hOuter), nofun⟩

theorem stepsRight_of_red {color : Bool} {k : K} {v : V} (hOrder : Sorted cmp (node color l k v r).entries)
    (hLeft : Balanced false h l) (hRight : Balanced false h r) (hKey : cmp aKey k ≠ .lt)
    (hMore : r.isEmpty = false) [Std.TransCmp cmp] :
    ∃ c₁ l₁ k₁ v₁ r₁ c' h', rightReady (node true l k v r) = node c₁ l₁ k₁ v₁ r₁ ∧
      StepsRight cmp aKey true h (node true l k v r).entries c₁ l₁ k₁ v₁ r₁ c' h' := by
  cases hRight with
  | empty => cases hMore
  | @black cr h a b k₂ v₂ hInner hOuter =>
      have hReady : rightReady (node true l k v (node false a k₂ v₂ b)) =
          if !a.isRed then moveRedRight (node true l k v (node false a k₂ v₂ b))
          else node true l k v (node false a k₂ v₂ b) := by
        simp [rightReady, hLeft.isRed]
      rw [hReady, hInner.isRed]
      cases cr with
      | true =>
          refine ⟨_, _, _, _, _, _, _, rfl, rfl, hKey, .inl (.leftRed hInner hOuter), ?_⟩
          exact fun _ _ _ hNew => hLeft.withRight_red hNew
      | false =>
          rw [Bool.not_false, if_pos rfl]
          cases hLeft with
          | @black cl _ a' b' k₁ v₁ hFirst hSecond =>
              cases cl with
              | false =>
                  rw [moveRedRight_flip hFirst.isRed]
                  refine ⟨_, _, _, _, _, _, _, rfl, rfl, hKey, .inl (.red hInner hOuter), ?_⟩
                  exact fun _ _ _ hNew => (Balanced.red hFirst hSecond).withRight_black hNew
              | true =>
                  cases hFirst with
                  | @red _ a'' b'' k₃ v₃ hLow hHigh =>
                      have hPivot : cmp aKey k₁ = .gt :=
                        hOrder.gt_front hKey (k₁, v₁) (by simp [FLLRBNode.entries])
                      have hDescent : Descent cmp aKey false (h + 1)
                          (node false b' k v (node true a k₂ v₂ b)) :=
                        .rightRed hSecond (.red hInner hOuter) hKey
                      rw [moveRedRight_turn]
                      refine ⟨_, _, _, _, _, _, _, rfl, ?_, by rw [hPivot]; decide,
                        .inr ⟨hPivot, hDescent⟩, ?_⟩
                      · simp [FLLRBNode.entries]
                      · exact fun _ _ _ hNew => (Balanced.black hLow hHigh).withRight_red hNew

/-- Every step to the right from a tree with a red to carry; without a right child the
node is a single red one. -/
theorem Descent.stepsRight [Std.TransCmp cmp] {color : Bool} {k : K} {v : V}
    (hDescent : Descent cmp aKey c h (node color l k v r))
    (hOrder : Sorted cmp (node color l k v r).entries) (hKey : cmp aKey k ≠ .lt) :
    (node color l k v r = node true empty k v empty ∧ c = true ∧ h = 0) ∨
    ∃ c₁ l₁ k₁ v₁ r₁ c' h', rightReady (node color l k v r) = node c₁ l₁ k₁ v₁ r₁ ∧
      StepsRight cmp aKey c h (node color l k v r).entries c₁ l₁ k₁ v₁ r₁ c' h' := by
  rcases hDescent with hLoaded | ⟨hLeft, hRight, -⟩
  · rcases hLoaded with ⟨hLeft, hRight⟩ | ⟨hLeft, hRight⟩
    · by_cases hMore : r.isEmpty = false
      · exact .inr (stepsRight_of_red hOrder hLeft hRight hKey hMore)
      · cases hRight with
        | black => exact absurd rfl hMore
        | empty =>
            cases hLeft
            exact .inl ⟨rfl, rfl, rfl⟩
    · cases hLeft with
      | @red _ a b k₁ v₁ hFirst hSecond =>
          have hPivot : cmp aKey k₁ = .gt :=
            hOrder.gt_front hKey (k₁, v₁) (by simp [FLLRBNode.entries])
          refine .inr ⟨false, a, k₁, v₁, node true b k v r, true, _, ?_, ?_,
            by rw [hPivot]; decide, .inl (.red hSecond hRight), ?_⟩
          · simp [rightReady, rotateRight_node]
          · simp [entries]
          · exact fun _ _ _ hNew => hFirst.withRight_black hNew
  · refine .inr ⟨false, l, k, v, r, true, _, ?_, rfl, hKey, .inl hRight.loaded, ?_⟩
    · simp [rightReady, hLeft.isRed, hRight.isRed]
    · exact fun _ _ _ hNew => hLeft.withRight_black hNew

end Right

section Remove

variable {cmp : K → K → Ordering} {aKey : K} {n : FLLRBNode K V} {c : Bool} {h : Nat}

/-- What remove leaves. -/
structure KeyRemoved (cmp : K → K → Ordering) (aKey : K) (c : Bool) (h : Nat)
    (n out : FLLRBNode K V) : Prop where
  removed : Removed c h out
  entries : out.entries = SortedEntries.erase cmp aKey n.entries

theorem remove_empty (fuel : Nat) : remove cmp aKey fuel (empty : FLLRBNode K V) = empty := by
  cases fuel <;> rfl

theorem remove_of_lt {fuel : Nat} {color : Bool} {l r : FLLRBNode K V} {k : K} {v : V}
    (hKey : cmp aKey k = .lt) :
    remove cmp aKey (fuel + 1) (node color l k v r) =
      (node color l k v r).leftReady.withLeft
        (remove cmp aKey fuel (node color l k v r).leftReady.left) := by
  rw [remove]
  exact if_pos hKey

section Absent

variable {fuel bound : Nat} {l r : FLLRBNode K V} {k : K} {v : V}

/-- What remove does to smaller trees. -/
def RemovesBelow (cmp : K → K → Ordering) (aKey : K) (V : Type v) (bound : Nat) : Prop :=
  ∀ (n : FLLRBNode K V) (c : Bool) (h fuel : Nat), n.count < bound → n.count ≤ fuel →
    Sorted cmp n.entries → Descent cmp aKey c h n →
      KeyRemoved cmp aKey c h n (remove cmp aKey fuel n)

theorem remove_absent_of_loaded (ih : RemovesBelow cmp aKey V bound) (hLoaded : Loaded c h n)
    (hBound : n.count < bound) (hFuel : n.count ≤ fuel) (hOrder : Sorted cmp n.entries)
    (hBefore : ∀ entry ∈ n.entries, cmp aKey entry.1 = .lt) :
    Removed c h (remove cmp aKey fuel n) ∧ (remove cmp aKey fuel n).entries = n.entries := by
  have hSpec := ih n c h fuel hBound hFuel hOrder (.loaded hLoaded)
  have hErase : SortedEntries.erase cmp aKey n.entries = n.entries :=
    SortedEntries.erase_eq_self fun entry hMem => by rw [hBefore entry hMem]; decide
  exact ⟨hSpec.removed, hSpec.entries.trans hErase⟩

/-- Without a red to carry, the step to the left finds one below or nothing at all. -/
theorem remove_absent_of_black (ih : RemovesBelow cmp aKey V bound) (hLeft : Balanced false h l)
    (hRight : Balanced false h r) (hLoose : Loose (node false l k v r))
    (hBound : (node false l k v r).count < bound) (hFuel : (node false l k v r).count ≤ fuel)
    (hOrder : Sorted cmp (node false l k v r).entries)
    (hBefore : ∀ entry ∈ (node false l k v r).entries, cmp aKey entry.1 = .lt) :
    Removed false (h + 1) (remove cmp aKey fuel (node false l k v r)) ∧
      (remove cmp aKey fuel (node false l k v r)).entries = (node false l k v r).entries := by
  rw [count] at hBound hFuel
  rw [entries, List.forall_mem_append, List.forall_mem_cons] at hBefore
  obtain ⟨hSmaller, hKey, -⟩ := hBefore
  obtain ⟨fuel, rfl⟩ : ∃ smaller, fuel = smaller + 1 := ⟨fuel - 1, by omega⟩
  rw [remove_of_lt hKey]
  cases hLeft with
  | empty =>
      have hReady : leftReady (node false empty k v r) = node false empty k v r := rfl
      rw [hReady, left_node, remove_empty, withLeft_node, fixUp_balanced .empty hRight rfl]
      exact ⟨⟨false, .black .empty hRight, fun _ => rfl⟩, rfl⟩
  | @black cl h a b k₁ v₁ hFirst hSecond =>
      have hRed : cl = true := by
        rw [← hFirst.isRed]
        simpa [Loose] using hLoose
      subst hRed
      have hReady : leftReady (node false (node false a k₁ v₁ b) k v r) =
          node false (node false a k₁ v₁ b) k v r := by
        simp [leftReady, hFirst.isRed]
      have hLoaded : Loaded false (h + 1) (node false a k₁ v₁ b) := .leftRed hFirst hSecond
      have hLess : (node false a k₁ v₁ b).count ≤ fuel := by omega
      obtain ⟨⟨c', hOut, hBlack⟩, hEntries⟩ :=
        remove_absent_of_loaded ih hLoaded (by omega) hLess (Sorted.append_iff.mp hOrder).1 hSmaller
      cases hBlack rfl
      rw [hReady, left_node, entries_withLeft, hEntries, withLeft_node,
        fixUp_balanced hOut hRight rfl]
      exact ⟨⟨false, .black hOut hRight, fun _ => rfl⟩, rfl⟩

/-- A key before all others is looked for in what removeMin left, and nothing is lost. -/
theorem MinRemoved.remove_absent {out : FLLRBNode K V} (ih : RemovesBelow cmp aKey V bound)
    (hMin : MinRemoved c h n out) (hBound : out.count < bound) (hFuel : out.count ≤ fuel)
    (hOrder : Sorted cmp out.entries) (hBefore : ∀ entry ∈ out.entries, cmp aKey entry.1 = .lt) :
    Removed c h (remove cmp aKey fuel out) ∧ (remove cmp aKey fuel out).entries = out.entries := by
  obtain ⟨c', hBalanced, hBlack⟩ := hMin.removed
  have hWeaken {h : Nat} {n : FLLRBNode K V} (hOut : Removed false h n) : Removed c h n :=
    hOut.imp fun _ hOut => ⟨hOut.1, fun _ => hOut.2 rfl⟩
  cases hBalanced with
  | empty =>
      rw [remove_empty]
      exact ⟨⟨false, .empty, fun _ => rfl⟩, rfl⟩
  | red hLeft hRight =>
      cases c with
      | false => cases hBlack rfl
      | true => exact remove_absent_of_loaded ih (.red hLeft hRight) hBound hFuel hOrder hBefore
  | @black cl h l r k v hLeft hRight =>
      cases cl with
      | true =>
          exact (remove_absent_of_loaded ih (.leftRed hLeft hRight) hBound hFuel hOrder
            hBefore).imp hWeaken id
      | false =>
          exact (remove_absent_of_black ih hLeft hRight hMin.loose hBound hFuel hOrder
            hBefore).imp hWeaken id

end Absent

section Run

variable {fuel : Nat} {color color' : Bool} {l l' r r' : FLLRBNode K V} {k k' : K} {v v' : V}

theorem remove_of_single (hKey : cmp aKey k ≠ .lt) :
    remove cmp aKey (fuel + 1) (node true empty k v empty) =
      if cmp aKey k = .eq then empty else node true empty k v empty := by
  rw [remove]
  simp [hKey, rightReady, key?, withRight, remove_empty, copyWith, fixUp]

theorem remove_of_tie (hKey : cmp aKey k ≠ .lt)
    (hReady : rightReady (node color l k v r) = node color' l' k' v' r')
    (hTie : cmp aKey k' = .eq) (hMore : r'.isEmpty = false) {smallest : K × V}
    (hMin : r'.min = some smallest) :
    remove cmp aKey (fuel + 1) (node color l k v r) =
      fixUp (node color' l' smallest.1 smallest.2 (remove cmp aKey fuel (removeMin fuel r'))) := by
  rw [remove]
  simp [hKey, hReady, key?, hTie, hMore, hMin, withRight, copyWith]

theorem remove_of_gt (hKey : cmp aKey k ≠ .lt)
    (hReady : rightReady (node color l k v r) = node color' l' k' v' r')
    (hLarger : cmp aKey k' = .gt) :
    remove cmp aKey (fuel + 1) (node color l k v r) =
      fixUp (node color' l' k' v' (remove cmp aKey fuel r')) := by
  rw [remove]
  simp [hKey, hReady, key?, hLarger, withRight, copyWith]

variable [Std.TransCmp cmp]

theorem Loaded.remove_left (ih : RemovesBelow cmp aKey V (node color l k v r).count)
    (hLoaded : Loaded c h (node color l k v r)) (hOrder : Sorted cmp (node color l k v r).entries)
    (hFuel : (node color l k v r).count ≤ fuel + 1) (hKey : cmp aKey k = .lt) :
    KeyRemoved cmp aKey c h (node color l k v r)
      (remove cmp aKey (fuel + 1) (node color l k v r)) := by
  rw [remove_of_lt hKey]
  by_cases hLeft : l.isEmpty = false
  · obtain ⟨c', h', rest, hStep⟩ := hLoaded.stepsLeft hLeft
    have hCount : (node color l k v r).leftReady.left.count < (node color l k v r).count := by
      rw [count_eq_length (node color l k v r)]
      exact hStep.count_lt
    have hParts : Sorted cmp ((node color l k v r).leftReady.left.entries ++ rest) :=
      hStep.entries ▸ hOrder
    have hSpec := ih _ c' h' fuel hCount (by omega) (List.pairwise_append.mp hParts).1
      (.loaded hStep.loaded)
    have hRest : SortedEntries.erase cmp aKey rest = rest :=
      SortedEntries.erase_eq_self fun entry hMem => by
        rw [hOrder.lt_back hKey entry (hStep.later.mem hMem)]
        decide
    refine ⟨hStep.removed _ hSpec.removed, ?_⟩
    rw [hStep.rebuilt, hSpec.entries, entries, hStep.entries, SortedEntries.erase_append, hRest]
  · cases l with
    | node => exact absurd rfl hLeft
    | empty =>
        obtain ⟨hBlack, hRight⟩ | ⟨hRed, _⟩ := hLoaded
        · have hReady : leftReady (node true empty k v r) = node true empty k v r := rfl
          rw [hReady, left_node, remove_empty, withLeft_node, fixUp_balanced hBlack hRight rfl]
          exact ⟨⟨true, .red hBlack hRight, id⟩, (SortedEntries.erase_of_lt hOrder hKey).symm⟩
        · cases hRed

/-- A key that ties gives way to the smallest one on its right, and is not there any more. -/
theorem StepsRight.remove_tie {whole : List (K × V)} {bound : Nat}
    (ih : RemovesBelow cmp aKey V bound)
    (hStep : StepsRight cmp aKey c h whole color' l' k' v' r' c' h') (hOrder : Sorted cmp whole)
    (hBound : r'.count < bound) (hFuel : r'.count ≤ fuel) (hTie : cmp aKey k' = .eq) :
    ∃ smallest, r'.isEmpty = false ∧ r'.min = some smallest ∧
      Removed c h (fixUp (node color' l' smallest.1 smallest.2
        (remove cmp aKey fuel (removeMin fuel r')))) ∧
      (fixUp (node color' l' smallest.1 smallest.2
        (remove cmp aKey fuel (removeMin fuel r')))).entries =
          SortedEntries.erase cmp aKey whole := by
  have hWhole := hStep.entries
  have hParts : Sorted cmp (l'.entries ++ (k', v') :: r'.entries) := hWhole ▸ hOrder
  have hRight : Sorted cmp r'.entries := (Sorted.append_iff.mp hParts).2.1
  have hLoaded : Loaded c' h' r' := hStep.visited.resolve_right fun hLarger => by
    rw [hTie] at hLarger
    cases hLarger.1
  obtain ⟨smallest, rest, hEntries⟩ := List.exists_cons_of_ne_nil hLoaded.entries_ne_nil
  have hMore : r'.isEmpty = false := by
    obtain ⟨_, _, _, _, _, rfl⟩ := hLoaded.eq_node
    rfl
  have hMin : r'.min = some smallest := by rw [min_eq_head, hEntries, List.head?_cons]
  have hRemoved := hLoaded.removeMin hFuel
  have hRest : (removeMin fuel r').entries = rest := by
    rw [hRemoved.entries, hEntries, List.tail_cons]
  have hLess : (removeMin fuel r').count < r'.count := by
    rw [count_eq_length, count_eq_length, hRest, hEntries, List.length_cons]
    omega
  have hBefore : ∀ entry ∈ (removeMin fuel r').entries, cmp aKey entry.1 = .lt := by
    intro entry hMem
    apply hParts.lt_back_of_eq hTie entry
    rw [hEntries]
    exact List.mem_cons_of_mem _ (hRest ▸ hMem)
  have hOut : Sorted cmp (removeMin fuel r').entries := by
    rw [hRest]
    rw [hEntries] at hRight
    exact (List.pairwise_cons.mp hRight).2
  obtain ⟨hAbsent, hSame⟩ :=
    hRemoved.remove_absent ih (hLess.trans hBound) (hLess.le.trans hFuel) hOut hBefore
  refine ⟨smallest, hMore, hMin, hStep.removed _ _ _ hAbsent, ?_⟩
  rw [entries_fixUp, FLLRBNode.entries, hSame, hRest, hWhole,
    SortedEntries.erase_of_eq hParts hTie, hEntries]

/-- A larger key is removed from the child that is visited. -/
theorem StepsRight.remove_gt {whole : List (K × V)} {out : FLLRBNode K V}
    (hStep : StepsRight cmp aKey c h whole color' l' k' v' r' c' h') (hOrder : Sorted cmp whole)
    (hLarger : cmp aKey k' = .gt) (hOut : KeyRemoved cmp aKey c' h' r' out) :
    Removed c h (fixUp (node color' l' k' v' out)) ∧
      (fixUp (node color' l' k' v' out)).entries = SortedEntries.erase cmp aKey whole := by
  have hWhole := hStep.entries
  have hParts : Sorted cmp (l'.entries ++ (k', v') :: r'.entries) := hWhole ▸ hOrder
  refine ⟨hStep.removed _ _ _ hOut.removed, ?_⟩
  rw [entries_fixUp, FLLRBNode.entries, hOut.entries, hWhole,
    SortedEntries.erase_of_gt hParts hLarger]

/-- A node without children is the key itself or does not hold it. -/
theorem remove_single (hKey : cmp aKey k ≠ .lt) :
    KeyRemoved cmp aKey true 0 (node true empty k v empty)
      (remove cmp aKey (fuel + 1) (node true empty k v empty)) := by
  have hOrder : Sorted cmp ([] ++ (k, v) :: []) := List.pairwise_singleton ..
  rw [remove_of_single hKey]
  split_ifs with hTie
  · exact ⟨⟨false, .empty, nofun⟩, (SortedEntries.erase_of_eq hOrder hTie).symm⟩
  · have hStay : SortedEntries.erase cmp aKey [(k, v)] = [(k, v)] :=
      SortedEntries.erase_eq_self fun entry hMem => by
        rw [List.mem_singleton.mp hMem]
        exact hTie
    exact ⟨⟨true, .red .empty .empty, nofun⟩, hStay.symm⟩

theorem Descent.remove_right (ih : RemovesBelow cmp aKey V (node color l k v r).count)
    (hDescent : Descent cmp aKey c h (node color l k v r))
    (hOrder : Sorted cmp (node color l k v r).entries)
    (hFuel : (node color l k v r).count ≤ fuel + 1) (hKey : cmp aKey k ≠ .lt) :
    KeyRemoved cmp aKey c h (node color l k v r)
      (remove cmp aKey (fuel + 1) (node color l k v r)) := by
  rcases hDescent.stepsRight hOrder hKey with
    ⟨hSingle, rfl, rfl⟩ | ⟨color', l', k', v', r', c', h', hReady, hStep⟩
  · cases hSingle
    exact remove_single hKey
  · have hCount : r'.count < (node color l k v r).count := by
      rw [count_eq_length, count_eq_length, hStep.entries, List.length_append, List.length_cons]
      omega
    cases hCase : cmp aKey k' with
    | lt => exact absurd hCase hStep.key
    | eq =>
        obtain ⟨smallest, hMore, hMin, hRemoved, hEntries⟩ :=
          hStep.remove_tie ih hOrder hCount (show r'.count ≤ fuel by omega) hCase
        rw [remove_of_tie hKey hReady hCase hMore hMin]
        exact ⟨hRemoved, hEntries⟩
    | gt =>
        have hParts : Sorted cmp (l'.entries ++ (k', v') :: r'.entries) := hStep.entries ▸ hOrder
        have hSpec := ih r' c' h' fuel hCount (by omega) (Sorted.append_iff.mp hParts).2.1
          (hStep.visited.elim .loaded And.right)
        obtain ⟨hRemoved, hEntries⟩ := hStep.remove_gt hOrder hCase hSpec
        rw [remove_of_gt hKey hReady hCase]
        exact ⟨hRemoved, hEntries⟩

end Run

/-- Removal keeps the black depth and takes out the entry of the key; the induction is
on the count. -/
theorem Descent.remove [Std.TransCmp cmp] {fuel : Nat} (hDescent : Descent cmp aKey c h n)
    (hOrder : Sorted cmp n.entries) (hFuel : n.count ≤ fuel) :
    KeyRemoved cmp aKey c h n (remove cmp aKey fuel n) := by
  induction hCount : n.count using Nat.strongRecOn generalizing n c h fuel with
  | ind count ih =>
      subst hCount
      have hBelow : RemovesBelow cmp aKey V n.count := fun m c h fuel hLess hFuel hOrder hDescent =>
        ih m.count hLess hDescent hOrder hFuel rfl
      cases n with
      | empty =>
          obtain ⟨_ | _⟩ := hDescent
      | node color l k v r =>
          obtain ⟨fuel, rfl⟩ : ∃ smaller, fuel = smaller + 1 := ⟨fuel - 1, by
            rw [count] at hFuel
            omega⟩
          by_cases hKey : cmp aKey k = .lt
          · rcases hDescent with hLoaded | ⟨_, _, hNot⟩
            · exact hLoaded.remove_left hBelow hOrder hFuel hKey
            · exact absurd hKey hNot
          · exact hDescent.remove_right hBelow hOrder hFuel hKey

end Remove

section Root

/-- The same but for the color of the root. -/
def Alike (a b : FLLRBNode K V) : Prop := a.setBlack = b.setBlack

variable {a b : FLLRBNode K V}

theorem Alike.cases (h : Alike a b) : a = empty ∧ b = empty ∨
    ∃ color color' l k v r, a = node color l k v r ∧ b = node color' l k v r := by
  cases a with
  | empty =>
      cases b with
      | empty => exact .inl ⟨rfl, rfl⟩
      | node => cases h
  | node color l k v r =>
      cases b with
      | empty => cases h
      | node color' =>
          cases h
          exact .inr ⟨color, color', l, k, v, r, rfl, rfl⟩

theorem Alike.left_eq (h : Alike a b) : a.left = b.left := by
  obtain ⟨rfl, rfl⟩ | ⟨_, _, _, _, _, _, rfl, rfl⟩ := h.cases <;> rfl

theorem Alike.right_eq (h : Alike a b) : a.right = b.right := by
  obtain ⟨rfl, rfl⟩ | ⟨_, _, _, _, _, _, rfl, rfl⟩ := h.cases <;> rfl

theorem Alike.key_eq (h : Alike a b) : a.key? = b.key? := by
  obtain ⟨rfl, rfl⟩ | ⟨_, _, _, _, _, _, rfl, rfl⟩ := h.cases <;> rfl

theorem Alike.copyWith (h : Alike a b) (key : Option K) (value : Option V)
    (l r : Option (FLLRBNode K V)) :
    Alike (a.copyWith key value none l r) (b.copyWith key value none l r) := by
  obtain ⟨rfl, rfl⟩ | ⟨_, _, _, _, _, _, rfl, rfl⟩ := h.cases <;> rfl

theorem Alike.rotateLeft (h : Alike a b) : Alike a.rotateLeft b.rotateLeft := by
  obtain ⟨rfl, rfl⟩ | ⟨_, _, _, _, _, r, rfl, rfl⟩ := h.cases
  · rfl
  · cases r <;> rfl

theorem Alike.rotateRight (h : Alike a b) : Alike a.rotateRight b.rotateRight := by
  obtain ⟨rfl, rfl⟩ | ⟨_, _, l, _, _, _, rfl, rfl⟩ := h.cases
  · rfl
  · cases l <;> rfl

theorem Alike.colorFlip (h : Alike a b) : Alike a.colorFlip b.colorFlip := by
  obtain ⟨rfl, rfl⟩ | ⟨_, _, _, _, _, _, rfl, rfl⟩ := h.cases <;> rfl

theorem Alike.ite {a' b' : FLLRBNode K V} (h : Alike a b) (h' : Alike a' b') (condition : Bool) :
    Alike (if condition then a else a') (if condition then b else b') := by
  cases condition
  · exact h'
  · exact h

theorem Alike.fixUp (h : Alike a b) : Alike a.fixUp b.fixUp := by
  rw [FLLRBNode.fixUp, FLLRBNode.fixUp, h.left_eq, h.right_eq]
  have hLeaning := h.rotateLeft.ite h (b.right.isRed && !b.left.isRed)
  generalize (if b.right.isRed && !b.left.isRed then a.rotateLeft else a) = a,
    (if b.right.isRed && !b.left.isRed then b.rotateLeft else b) = b at hLeaning ⊢
  have hTurn := hLeaning.rotateRight.ite hLeaning (b.left.isRed && b.left.left.isRed)
  simp only [hLeaning.left_eq]
  generalize (if b.left.isRed && b.left.left.isRed then a.rotateRight else a) = a,
    (if b.left.isRed && b.left.left.isRed then b.rotateRight else b) = b at hTurn ⊢
  rw [hTurn.left_eq, hTurn.right_eq]
  exact hTurn.colorFlip.ite hTurn _

theorem Alike.moveRedLeft (h : Alike a b) : Alike a.moveRedLeft b.moveRedLeft := by
  have hFlip := h.colorFlip
  rw [FLLRBNode.moveRedLeft, FLLRBNode.moveRedLeft]
  simp only [hFlip.right_eq]
  exact (hFlip.copyWith ..).rotateLeft.colorFlip.ite hFlip _

theorem Alike.moveRedRight (h : Alike a b) : Alike a.moveRedRight b.moveRedRight := by
  have hFlip := h.colorFlip
  rw [FLLRBNode.moveRedRight, FLLRBNode.moveRedRight]
  simp only [hFlip.left_eq]
  exact hFlip.rotateRight.colorFlip.ite hFlip _

theorem Alike.leftReady (h : Alike a b) : Alike a.leftReady b.leftReady := by
  rw [FLLRBNode.leftReady, FLLRBNode.leftReady, h.left_eq]
  exact h.moveRedLeft.ite h _

theorem Alike.rightReady (h : Alike a b) : Alike a.rightReady b.rightReady := by
  have hTurn := h.rotateRight.ite h b.left.isRed
  rw [FLLRBNode.rightReady, FLLRBNode.rightReady]
  simp only [h.left_eq, hTurn.right_eq]
  exact hTurn.moveRedRight.ite hTurn _

/-- No step of remove looks at the color of the root. -/
theorem Alike.remove {cmp : K → K → Ordering} {aKey : K} {fuel : Nat} (h : Alike a b) :
    Alike (remove cmp aKey fuel a) (remove cmp aKey fuel b) := by
  obtain ⟨rfl, rfl⟩ | ⟨color, color', l, k, v, r, rfl, rfl⟩ := h.cases
  · rfl
  · cases fuel with
    | zero => exact h
    | succ fuel =>
        rw [FLLRBNode.remove, FLLRBNode.remove]
        by_cases hKey : cmp aKey k = .lt
        · simp only [hKey, if_pos, h.leftReady.left_eq]
          exact (h.leftReady.copyWith ..).fixUp
        · have hReady := h.rightReady
          simp only [hKey, if_neg, not_false_eq_true, hReady.right_eq, hReady.key_eq]
          refine Alike.ite (Alike.ite rfl ?_ _) (hReady.copyWith ..).fixUp _
          rw [(hReady.copyWith ..).right_eq]
          exact ((hReady.copyWith ..).copyWith ..).fixUp

theorem Balanced.setBlack {c : Bool} {h : Nat} {n : FLLRBNode K V} (hBalanced : Balanced c h n) :
    ∃ h', Balanced false h' n.setBlack := by
  cases hBalanced with
  | empty => exact ⟨0, .empty⟩
  | red hLeft hRight => exact ⟨_, .black hLeft hRight⟩
  | black hLeft hRight => exact ⟨_, .black hLeft hRight⟩

/-- Removal at the root: a black root without a red to carry is as good as a red one. -/
theorem Balanced.remove {cmp : K → K → Ordering} [Std.TransCmp cmp] {h : Nat}
    {n : FLLRBNode K V} {aKey : K} (hBalanced : Balanced false h n)
    (hOrder : Sorted cmp n.entries) :
    (∃ h', Balanced false h' (remove cmp aKey n.count n).setBlack) ∧
      (remove cmp aKey n.count n).setBlack.entries = SortedEntries.erase cmp aKey n.entries := by
  cases hBalanced with
  | empty => exact ⟨⟨0, .empty⟩, rfl⟩
  | @black c h l r k v hLeft hRight =>
      cases c with
      | true =>
          have hDescent : Descent cmp aKey false (h + 1) (node false l k v r) :=
            .loaded (.leftRed hLeft hRight)
          have hSpec := hDescent.remove hOrder (Nat.le_refl _)
          obtain ⟨c', hOut, -⟩ := hSpec.removed
          exact ⟨hOut.setBlack, (entries_copyWith_color ..).trans hSpec.entries⟩
      | false =>
          have hAlike : Alike (node false l k v r) (node true l k v r) := rfl
          have hDescent : Descent cmp aKey true h (node true l k v r) :=
            .loaded (.red hLeft hRight)
          have hSpec := hDescent.remove hOrder (Nat.le_refl _)
          obtain ⟨c', hOut, -⟩ := hSpec.removed
          have hSame : (FLLRBNode.remove cmp aKey (node false l k v r).count
              (node false l k v r)).setBlack = _ := hAlike.remove
          rw [hSame]
          exact ⟨hOut.setBlack, (entries_copyWith_color ..).trans hSpec.entries⟩

end Root

end FLLRBNode

end CICJudging
