import CICJudging.Database.SortedDictionary

/-! The keys of a sorted dictionary one after the other: by position in the array, over
a stack of nodes in the tree. Both are the cursor of one list of keys. -/
namespace CICJudging

open SortedEntries (Sorted)

universe u v

/-- FArraySortedDictionaryEnumerator and FTreeSortedDictionaryEnumerator, the last node
of the stack first. -/
inductive KeyEnumerator (K : Type u) (V : Type v) where
  | array (keys : List K) (pos : Int) (isReverse : Bool)
  | tree (stack : List (FLLRBNode K V)) (isReverse : Bool)

namespace KeyEnumerator

variable {K : Type u} {V : Type v}

/-- The node and those below it towards the next key. -/
def push (isReverse : Bool) : FLLRBNode K V → List (FLLRBNode K V) → List (FLLRBNode K V)
  | .empty, stack => stack
  | .node red left key value right, stack =>
      if isReverse then push isReverse right (.node red left key value right :: stack)
      else push isReverse left (.node red left key value right :: stack)

def nextObject : KeyEnumerator K V → Option K × KeyEnumerator K V
  | array keys pos isReverse =>
      if 0 ≤ pos ∧ pos < keys.length then
        (keys[pos.toNat]?, array keys (if isReverse then pos - 1 else pos + 1) isReverse)
      else (none, array keys pos isReverse)
  | tree [] isReverse => (none, tree [] isReverse)
  | tree (node :: stack) isReverse =>
      (node.key?, tree (push isReverse (if isReverse then node.left else node.right) stack)
        isReverse)

/-- The result of the call after so many others. -/
def objectAt : Nat → KeyEnumerator K V → Option K
  | 0, e => e.nextObject.1
  | n + 1, e => objectAt n e.nextObject.2

/-- The nodes that the search for the start key leaves on the stack. No start key
counts as one before all others, in reverse too. -/
def start (cmp : K → K → Ordering) (startKey : Option K) (isReverse : Bool) :
    FLLRBNode K V → List (FLLRBNode K V) → List (FLLRBNode K V)
  | .empty, stack => stack
  | .node red left key value right, stack =>
      let order := match startKey with
        | some startKey => cmp key startKey
        | none => .gt
      match if isReverse then order.swap else order with
      | .lt =>
          if isReverse then start cmp startKey isReverse left stack
          else start cmp startKey isReverse right stack
      | .eq => .node red left key value right :: stack
      | .gt =>
          if isReverse then
            start cmp startKey isReverse right (.node red left key value right :: stack)
          else start cmp startKey isReverse left (.node red left key value right :: stack)

/-- The keys that the calls to come return. -/
def remaining : KeyEnumerator K V → List K
  | array keys pos isReverse =>
      if isReverse then if pos < keys.length then (keys.take (pos + 1).toNat).reverse else []
      else if 0 ≤ pos then keys.drop pos.toNat else []
  | tree stack isReverse =>
      stack.flatMap fun node => node.key?.toList ++
        if isReverse then (node.left.entries.map Prod.fst).reverse
        else node.right.entries.map Prod.fst

/-- There is no empty node on the stack. -/
def Valid : KeyEnumerator K V → Prop
  | array .. => True
  | tree stack _ => ∀ node ∈ stack, node.isEmpty = false

section Next

variable {e : KeyEnumerator K V} {node : FLLRBNode K V} {stack : List (FLLRBNode K V)}
  {isReverse : Bool}

theorem push_valid (h : Valid (tree stack isReverse)) :
    Valid (tree (push isReverse node stack) isReverse) := by
  induction node generalizing stack with
  | empty => exact h
  | node red left key value right ihLeft ihRight =>
      have hPushed : Valid (tree (.node red left key value right :: stack) isReverse) :=
        List.forall_mem_cons.mpr ⟨rfl, h⟩
      rw [push]
      split_ifs
      · exact ihRight hPushed
      · exact ihLeft hPushed

theorem remaining_push : (tree (push isReverse node stack) isReverse).remaining =
    (if isReverse then (node.entries.map Prod.fst).reverse else node.entries.map Prod.fst) ++
      (tree stack isReverse).remaining := by
  induction node generalizing stack with
  | empty => cases isReverse <;> rfl
  | node red left key value right ihLeft ihRight =>
      rw [push]
      cases isReverse with
      | false =>
          rw [if_neg Bool.false_ne_true, ihLeft]
          simp [remaining, FLLRBNode.key?, FLLRBNode.entries]
      | true =>
          rw [if_pos rfl, ihRight]
          simp [remaining, FLLRBNode.key?, FLLRBNode.entries]

theorem nextObject_valid (h : Valid e) : Valid e.nextObject.2 := by
  cases e with
  | array keys pos isReverse =>
      rw [nextObject]
      split_ifs <;> trivial
  | tree stack isReverse =>
      cases stack with
      | nil => exact h
      | cons node stack => exact push_valid (List.forall_mem_cons.mp h).2

theorem remaining_forward (keys : List K) (i : Nat) :
    (array keys i false : KeyEnumerator K V).remaining = keys.drop i := by
  simp [remaining]

theorem remaining_reverse {keys : List K} {i : Nat} (h : i ≤ keys.length) :
    (array keys (i - 1 : Int) true : KeyEnumerator K V).remaining = (keys.take i).reverse := by
  have hLess : (i : Int) - 1 < keys.length := by omega
  simp [remaining, hLess]

theorem remaining_outside {keys : List K} {pos : Int} (h : ¬(0 ≤ pos ∧ pos < keys.length)) :
    (array keys pos isReverse : KeyEnumerator K V).remaining = [] := by
  rw [remaining]
  split_ifs with hReverse hLess hPos
  · have hEmpty : (pos + 1).toNat = 0 := by omega
    rw [hEmpty, List.take_zero, List.reverse_nil]
  · rfl
  · exact List.drop_eq_nil_of_le (by omega)
  · rfl

/-- A call returns the first of the keys and leaves the others; after the last one it
returns nothing and leaves nothing. -/
theorem nextObject_spec (h : Valid e) :
    e.nextObject.1 = e.remaining.head? ∧ e.nextObject.2.remaining = e.remaining.tail := by
  cases e with
  | array keys pos isReverse =>
      by_cases hRange : 0 ≤ pos ∧ pos < keys.length
      · rw [nextObject, if_pos hRange]
        obtain ⟨i, rfl⟩ := Int.eq_ofNat_of_zero_le hRange.1
        have hLess : i < keys.length := by omega
        cases isReverse with
        | false =>
            have hNext : (if false = true then (i : Int) - 1 else i + 1) = (i + 1 : Nat) := rfl
            dsimp only
            rw [hNext, remaining_forward, remaining_forward, List.head?_drop, List.tail_drop]
            exact ⟨rfl, rfl⟩
        | true =>
            have hNow : (i : Int) = (i + 1 : Nat) - 1 := by omega
            have hRest : (array keys i true : KeyEnumerator K V).remaining =
                keys[i] :: (keys.take i).reverse := by
              rw [hNow, remaining_reverse hLess, List.take_succ_eq_append_getElem hLess,
                List.reverse_append]
              rfl
            dsimp only
            rw [hRest, if_pos rfl, remaining_reverse hLess.le]
            exact ⟨List.getElem?_eq_getElem hLess, rfl⟩
      · rw [nextObject, if_neg hRange]
        dsimp only
        rw [remaining_outside hRange]
        exact ⟨rfl, rfl⟩
  | tree stack isReverse =>
      cases stack with
      | nil => exact ⟨rfl, rfl⟩
      | cons node stack =>
          cases node with
          | empty => cases (List.forall_mem_cons.mp h).1
          | node red left key value right =>
              refine ⟨rfl, ?_⟩
              rw [nextObject, remaining_push]
              cases isReverse <;> rfl

theorem objectAt_eq (h : Valid e) (n : Nat) : objectAt n e = e.remaining[n]? := by
  induction n generalizing e with
  | zero => rw [objectAt, (nextObject_spec h).1, List.head?_eq_getElem?]
  | succ n ih => rw [objectAt, ih (nextObject_valid h), (nextObject_spec h).2, List.getElem?_tail]

end Next

/-- The keys that do not come before the start key, in the direction asked for. -/
def keysFrom (cmp : K → K → Ordering) (startKey : K) (isReverse : Bool) (entries : List (K × V)) :
    List K :=
  if isReverse then ((entries.filter fun entry => (cmp entry.1 startKey).isLE).map Prod.fst).reverse
  else (entries.filter fun entry => (cmp entry.1 startKey).isGE).map Prod.fst

section Start

variable {cmp : K → K → Ordering} {startKey : Option K} {isReverse : Bool}
  {node : FLLRBNode K V} {stack : List (FLLRBNode K V)}

theorem start_valid (h : Valid (tree stack isReverse)) :
    Valid (tree (start cmp startKey isReverse node stack) isReverse) := by
  induction node generalizing stack with
  | empty => exact h
  | node red left key value right ihLeft ihRight =>
      have hPushed : Valid (tree (.node red left key value right :: stack) isReverse) :=
        List.forall_mem_cons.mpr ⟨rfl, h⟩
      simp only [start]
      split
      · split_ifs
        · exact ihLeft h
        · exact ihRight h
      · exact hPushed
      · split_ifs
        · exact ihRight hPushed
        · exact ihLeft hPushed

theorem remaining_start_none :
    (tree (start cmp none false node stack) false).remaining =
      node.entries.map Prod.fst ++ (tree stack false).remaining := by
  induction node generalizing stack with
  | empty => rfl
  | node red left key value right ihLeft ihRight =>
      simp only [start, Bool.false_eq_true, if_false]
      rw [ihLeft]
      simp [remaining, FLLRBNode.key?, FLLRBNode.entries]

/-- Without a start key the search in reverse passes every node by. -/
theorem start_reverse_none : start cmp none true node stack = stack := by
  induction node generalizing stack with
  | empty => rfl
  | node red left key value right ihLeft ihRight =>
      simp only [start, if_true, Ordering.swap]
      exact ihLeft

end Start

section Spec

variable {cmp : K → K → Ordering} {startKey : K} {isReverse : Bool}
  {front back : List (K × V)} {entry : K × V}

theorem keysFrom_append : keysFrom cmp startKey isReverse (front ++ back) =
    if isReverse then keysFrom cmp startKey true back ++ keysFrom cmp startKey true front
    else keysFrom cmp startKey false front ++ keysFrom cmp startKey false back := by
  cases isReverse <;> simp [keysFrom]

theorem keysFrom_middle : keysFrom cmp startKey isReverse (front ++ entry :: back) =
    if isReverse then
      keysFrom cmp startKey true back ++ keysFrom cmp startKey true [entry] ++
        keysFrom cmp startKey true front
    else
      keysFrom cmp startKey false front ++ keysFrom cmp startKey false [entry] ++
        keysFrom cmp startKey false back := by
  have hEntry := @keysFrom_append _ _ cmp startKey isReverse [entry] back
  rw [keysFrom_append]
  cases isReverse <;> simp_all

theorem keysFrom_singleton : keysFrom cmp startKey isReverse [entry] =
    if (if isReverse then (cmp entry.1 startKey).isLE else (cmp entry.1 startKey).isGE) then
      [entry.1]
    else [] := by
  cases isReverse <;> simp [keysFrom, List.filter_cons] <;> split <;> rfl

theorem keysFrom_of_lt (isReverse : Bool) (h : ∀ other ∈ front, cmp other.1 startKey = .lt) :
    keysFrom cmp startKey isReverse front =
      if isReverse then (front.map Prod.fst).reverse else [] := by
  cases isReverse with
  | false =>
      have hNone : front.filter (fun other => (cmp other.1 startKey).isGE) = [] :=
        List.filter_eq_nil_iff.mpr fun other hMem => by rw [h other hMem]; decide
      rw [keysFrom, if_neg Bool.false_ne_true, hNone]
      rfl
  | true =>
      have hAll : front.filter (fun other => (cmp other.1 startKey).isLE) = front :=
        List.filter_eq_self.mpr fun other hMem => by rw [h other hMem]; rfl
      rw [keysFrom, if_pos rfl, hAll]
      rfl

theorem keysFrom_of_gt (isReverse : Bool) (h : ∀ other ∈ back, cmp other.1 startKey = .gt) :
    keysFrom cmp startKey isReverse back = if isReverse then [] else back.map Prod.fst := by
  cases isReverse with
  | false =>
      have hAll : back.filter (fun other => (cmp other.1 startKey).isGE) = back :=
        List.filter_eq_self.mpr fun other hMem => by rw [h other hMem]; rfl
      rw [keysFrom, if_neg Bool.false_ne_true, hAll]
      rfl
  | true =>
      have hNone : back.filter (fun other => (cmp other.1 startKey).isLE) = [] :=
        List.filter_eq_nil_iff.mpr fun other hMem => by rw [h other hMem]; decide
      rw [keysFrom, if_pos rfl, hNone]
      rfl

theorem remaining_node (red : Bool) (left right : FLLRBNode K V) (key : K) (value : V)
    (stack : List (FLLRBNode K V)) :
    (tree (.node red left key value right :: stack) isReverse).remaining =
      key :: (if isReverse then (left.entries.map Prod.fst).reverse
        else right.entries.map Prod.fst) ++ (tree stack isReverse).remaining := rfl

variable [Std.TransCmp cmp]

theorem lt_of_front (h : Sorted cmp (front ++ entry :: back)) (hKey : cmp entry.1 startKey ≠ .gt) :
    ∀ other ∈ front, cmp other.1 startKey = .lt := by
  obtain ⟨-, -, hFront, -, -⟩ := Sorted.append_iff.mp h
  exact fun other hMem =>
    Std.TransCmp.lt_of_lt_of_isLE (hFront other hMem) (Ordering.isLE_iff_ne_gt.mpr hKey)

theorem gt_of_back (h : Sorted cmp (front ++ entry :: back)) (hKey : cmp entry.1 startKey ≠ .lt) :
    ∀ other ∈ back, cmp other.1 startKey = .gt := by
  obtain ⟨-, -, -, hBack, -⟩ := Sorted.append_iff.mp h
  exact fun other hMem => Std.OrientedCmp.gt_of_lt (Std.TransCmp.lt_of_isLE_of_lt
    (Std.OrientedCmp.isLE_of_isGE (Ordering.isGE_iff_ne_lt.mpr hKey)) (hBack other hMem))

/-- The search leaves the keys from the start key on, in the direction asked for. -/
theorem remaining_start {node : FLLRBNode K V} {stack : List (FLLRBNode K V)}
    (h : Sorted cmp node.entries) :
    (tree (start cmp (some startKey) isReverse node stack) isReverse).remaining =
      keysFrom cmp startKey isReverse node.entries ++ (tree stack isReverse).remaining := by
  induction node generalizing stack with
  | empty => cases isReverse <;> rfl
  | node red left key value right ihLeft ihRight =>
      obtain ⟨hLeft, hRight, -⟩ := Sorted.append_iff.mp h
      have hFront (hKey : cmp key startKey ≠ .gt) : keysFrom cmp startKey isReverse left.entries =
          if isReverse then (left.entries.map Prod.fst).reverse else [] :=
        keysFrom_of_lt isReverse (lt_of_front h hKey)
      have hBack (hKey : cmp key startKey ≠ .lt) : keysFrom cmp startKey isReverse right.entries =
          if isReverse then [] else right.entries.map Prod.fst :=
        keysFrom_of_gt isReverse (gt_of_back h hKey)
      rw [FLLRBNode.entries, keysFrom_middle]
      simp only [start]
      cases isReverse with
      | false =>
          simp only [Bool.false_eq_true, if_false] at hFront hBack ⊢
          cases hKey : cmp key startKey with
          | lt =>
              have hEntry : keysFrom cmp startKey false [(key, value)] = [] := by
                simp [keysFrom_singleton, hKey]
              simp only [ihRight hRight, hEntry, hFront (by rw [hKey]; decide), List.nil_append]
          | eq =>
              have hEntry : keysFrom cmp startKey false [(key, value)] = [key] := by
                simp [keysFrom_singleton, hKey]
              simp only [remaining_node, hEntry, hFront (by rw [hKey]; decide),
                hBack (by rw [hKey]; decide), List.nil_append]
              rfl
          | gt =>
              have hEntry : keysFrom cmp startKey false [(key, value)] = [key] := by
                simp [keysFrom_singleton, hKey]
              simp only [ihLeft hLeft, remaining_node, hEntry, hBack (by rw [hKey]; decide),
                List.append_assoc]
              rfl
      | true =>
          simp only [if_true] at hFront hBack ⊢
          cases hKey : cmp key startKey with
          | lt =>
              have hEntry : keysFrom cmp startKey true [(key, value)] = [key] := by
                simp [keysFrom_singleton, hKey]
              simp only [ihRight hRight, remaining_node, hEntry, hFront (by rw [hKey]; decide),
                Ordering.swap, List.append_assoc]
              rfl
          | eq =>
              have hEntry : keysFrom cmp startKey true [(key, value)] = [key] := by
                simp [keysFrom_singleton, hKey]
              simp only [remaining_node, hEntry, hFront (by rw [hKey]; decide),
                hBack (by rw [hKey]; decide), Ordering.swap, List.nil_append]
              rfl
          | gt =>
              have hEntry : keysFrom cmp startKey true [(key, value)] = [] := by
                simp [keysFrom_singleton, hKey]
              simp only [ihLeft hLeft, hEntry, hBack (by rw [hKey]; decide), Ordering.swap,
                List.nil_append]

end Spec

end KeyEnumerator

namespace FImmutableSortedDictionary

variable {K : Type u} {V : Type v} (cmp : K → K → Ordering) (startKey : K)

def keyEnumerator : FImmutableSortedDictionary K V → KeyEnumerator K V
  | array keysAndValues => .array (keysAndValues.map Prod.fst) 0 false
  | tree root => .tree (KeyEnumerator.start cmp none false root []) false

def reverseKeyEnumerator : FImmutableSortedDictionary K V → KeyEnumerator K V
  | array keysAndValues => .array (keysAndValues.map Prod.fst) (keysAndValues.length - 1) true
  | tree root => .tree (KeyEnumerator.start cmp none true root []) true

def keyEnumeratorFrom : FImmutableSortedDictionary K V → KeyEnumerator K V
  | array keysAndValues =>
      .array (keysAndValues.map Prod.fst) (findInsertPositionForKey cmp startKey keysAndValues) false
  | tree root => .tree (KeyEnumerator.start cmp (some startKey) false root []) false

/-- Without an exact match the search ends after the closest key before it. -/
def reverseKeyEnumeratorFrom : FImmutableSortedDictionary K V → KeyEnumerator K V
  | array keysAndValues =>
      let startPos := findInsertPositionForKey cmp startKey keysAndValues
      let isExact := keysAndValues[startPos]?.any fun entry => cmp entry.1 startKey == .eq
      .array (keysAndValues.map Prod.fst) (if isExact then startPos else startPos - 1) true
  | tree root => .tree (KeyEnumerator.start cmp (some startKey) true root []) true

variable {cmp startKey} [Std.TransCmp cmp] {d : FImmutableSortedDictionary K V}

open KeyEnumerator (keysFrom)

omit [Std.TransCmp cmp] in
/-- The position splits the entries before the key from the others. -/
theorem findInsertPosition_split (keysAndValues : List (K × V)) :
    ∃ front back, keysAndValues = front ++ back ∧
      findInsertPositionForKey cmp startKey keysAndValues = front.length ∧
      (∀ other ∈ front, cmp other.1 startKey = .lt) ∧
      ∀ entry ∈ back.head?, cmp entry.1 startKey ≠ .lt := by
  induction keysAndValues with
  | nil => exact ⟨[], [], rfl, rfl, by simp, by simp⟩
  | cons entry rest ih =>
      rw [findInsertPositionForKey]
      split_ifs with hLess
      · obtain ⟨front, back, rfl, hLength, hFront, hBack⟩ := ih
        exact ⟨entry :: front, back, rfl, congrArg (· + 1) hLength,
          List.forall_mem_cons.mpr ⟨hLess, hFront⟩, hBack⟩
      · exact ⟨[], entry :: rest, rfl, rfl, by simp, by simpa using hLess⟩

theorem remaining_keyEnumeratorFrom (h : WellFormed cmp d) :
    (d.keyEnumeratorFrom cmp startKey).remaining = keysFrom cmp startKey false d.entries := by
  cases d with
  | tree root => exact (KeyEnumerator.remaining_start h.1).trans (List.append_nil _)
  | array keysAndValues =>
      obtain ⟨hOrder, -⟩ := h
      obtain ⟨front, back, rfl, hPos, hFront, hBack⟩ :=
        @findInsertPosition_split _ _ cmp startKey keysAndValues
      have hDrop : ((front ++ back).map Prod.fst).drop front.length = back.map Prod.fst := by
        simp
      rw [keyEnumeratorFrom, KeyEnumerator.remaining_forward, hPos, hDrop, entries]
      cases back with
      | nil => rw [List.append_nil, KeyEnumerator.keysFrom_of_lt false hFront]; rfl
      | cons entry rest =>
          have hKey : cmp entry.1 startKey ≠ .lt := hBack entry rfl
          have hRest := KeyEnumerator.gt_of_back hOrder hKey
          have hEntry : (cmp entry.1 startKey).isGE := Ordering.isGE_iff_ne_lt.mpr hKey
          rw [KeyEnumerator.keysFrom_middle, KeyEnumerator.keysFrom_of_lt false hFront,
            KeyEnumerator.keysFrom_of_gt false hRest]
          simp [KeyEnumerator.keysFrom_singleton, hEntry]

theorem remaining_reverseKeyEnumeratorFrom (h : WellFormed cmp d) :
    (d.reverseKeyEnumeratorFrom cmp startKey).remaining = keysFrom cmp startKey true d.entries := by
  cases d with
  | tree root => exact (KeyEnumerator.remaining_start h.1).trans (List.append_nil _)
  | array keysAndValues =>
      obtain ⟨hOrder, -⟩ := h
      obtain ⟨front, back, rfl, hPos, hFront, hBack⟩ :=
        @findInsertPosition_split _ _ cmp startKey keysAndValues
      have hHead : (front ++ back)[front.length]? = back.head? := by
        rw [List.getElem?_append_right (Nat.le_refl _), Nat.sub_self, List.head?_eq_getElem?]
      have hBefore : (.array ((front ++ back).map Prod.fst) (front.length - 1) true :
          KeyEnumerator K V).remaining = (front.map Prod.fst).reverse := by
        rw [KeyEnumerator.remaining_reverse (by simp)]
        simp
      rw [reverseKeyEnumeratorFrom, hPos, hHead, entries]
      cases back with
      | nil =>
          rw [List.append_nil] at hBefore ⊢
          exact hBefore.trans (KeyEnumerator.keysFrom_of_lt true hFront).symm
      | cons entry rest =>
          have hKey : cmp entry.1 startKey ≠ .lt := hBack entry rfl
          have hRest := KeyEnumerator.gt_of_back hOrder hKey
          rw [KeyEnumerator.keysFrom_middle, KeyEnumerator.keysFrom_of_lt true hFront,
            KeyEnumerator.keysFrom_of_gt true hRest, KeyEnumerator.keysFrom_singleton]
          cases hTie : cmp entry.1 startKey with
          | lt => exact absurd hTie hKey
          | gt => simpa [hTie] using hBefore
          | eq =>
              have hAt : (front.length : Int) = (front.length + 1 : Nat) - 1 := by omega
              have hTake : ((front ++ entry :: rest).map Prod.fst).take (front.length + 1) =
                  front.map Prod.fst ++ [entry.1] := by
                simp [List.take_append, List.take_of_length_le]
              simp only [List.head?_cons, Option.any_some, hTie, BEq.rfl, if_true]
              rw [hAt, KeyEnumerator.remaining_reverse (by simp), hTake]
              simp

/-- The calls of the enumerators return the keys in order, from the start key on, and
nothing after the last one, in either form of the dictionary. -/
theorem objectAt_keyEnumerators (h : WellFormed cmp d) (startKey : K) (n : Nat) :
    (d.keyEnumerator cmp).objectAt n = (d.entries.map Prod.fst)[n]? ∧
      (d.keyEnumeratorFrom cmp startKey).objectAt n =
        (keysFrom cmp startKey false d.entries)[n]? ∧
      (d.reverseKeyEnumeratorFrom cmp startKey).objectAt n =
        (keysFrom cmp startKey true d.entries)[n]? := by
  have hNil (isReverse : Bool) : KeyEnumerator.Valid (.tree [] isReverse : KeyEnumerator K V) :=
    fun _ hMem => absurd hMem List.not_mem_nil
  have hAll : (d.keyEnumerator cmp).remaining = d.entries.map Prod.fst := by
    cases d with
    | array keysAndValues => exact KeyEnumerator.remaining_forward _ 0
    | tree root => exact KeyEnumerator.remaining_start_none.trans (List.append_nil _)
  refine ⟨?_, ?_, ?_⟩
  · rw [KeyEnumerator.objectAt_eq, hAll]
    cases d with
    | array => trivial
    | tree => exact KeyEnumerator.start_valid (hNil false)
  · rw [KeyEnumerator.objectAt_eq, remaining_keyEnumeratorFrom h]
    cases d with
    | array => trivial
    | tree => exact KeyEnumerator.start_valid (hNil false)
  · rw [KeyEnumerator.objectAt_eq, remaining_reverseKeyEnumeratorFrom h]
    cases d with
    | array => trivial
    | tree => exact KeyEnumerator.start_valid (hNil true)

theorem objectAt_threeKeys :
    ((threeKeys.keyEnumerator Ord.compare).objectAt 1 = (threeKeys.entries.map Prod.fst)[1]? ∧
      (threeKeys.keyEnumeratorFrom Ord.compare 4).objectAt 1 =
        (keysFrom Ord.compare 4 false threeKeys.entries)[1]? ∧
      (threeKeys.reverseKeyEnumeratorFrom Ord.compare 4).objectAt 1 =
        (keysFrom Ord.compare 4 true threeKeys.entries)[1]?) ∧
    (threeNodes.keyEnumerator Ord.compare).objectAt 1 = (threeNodes.entries.map Prod.fst)[1]? ∧
      (threeNodes.keyEnumeratorFrom Ord.compare 4).objectAt 1 =
        (keysFrom Ord.compare 4 false threeNodes.entries)[1]? ∧
      (threeNodes.reverseKeyEnumeratorFrom Ord.compare 4).objectAt 1 =
        (keysFrom Ord.compare 4 true threeNodes.entries)[1]? :=
  ⟨objectAt_keyEnumerators threeKeys_wellFormed 4 1,
    objectAt_keyEnumerators threeNodes_wellFormed 4 1⟩

omit [Std.TransCmp cmp] in
/-- In reverse without a start key the array has all keys, the tree none. -/
theorem objectAt_reverseKeyEnumerator (keysAndValues : List (K × V)) (root : FLLRBNode K V)
    (n : Nat) :
    ((array keysAndValues).reverseKeyEnumerator cmp).objectAt n =
        (keysAndValues.map Prod.fst).reverse[n]? ∧
      ((tree root).reverseKeyEnumerator cmp).objectAt n = none := by
  constructor
  · have hRemaining := @KeyEnumerator.remaining_reverse K V (keysAndValues.map Prod.fst) _
      (Nat.le_refl _)
    rw [List.take_length, List.length_map] at hRemaining
    rw [reverseKeyEnumerator, KeyEnumerator.objectAt_eq, hRemaining]
    trivial
  · rw [reverseKeyEnumerator, KeyEnumerator.start_reverse_none, KeyEnumerator.objectAt_eq]
    · rfl
    · exact fun _ hMem => absurd hMem List.not_mem_nil

end FImmutableSortedDictionary

end CICJudging
