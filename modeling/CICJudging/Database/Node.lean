import CICJudging.Database.Root
import CICJudging.Database.PushId
import CICJudging.Database.SortedDictionary
import CICJudging.Library.PathStore

/-! The nodes of the client's copy of the database: reading and writing along a path. -/
namespace CICJudging

open FImmutableSortedDictionary (WellFormed)
open PathStore (graft)

inductive LeafValue where
  | string (text : String)
  | number (value : ℚ)
  | bool (value : Bool)
  deriving DecidableEq

/-- Leaves, and nodes with children by key; a node without children is empty and has
no priority. -/
inductive FNode where
  | leaf (value : LeafValue) (priorityNode : FNode)
  | node (priorityNode : Option FNode) (children : FImmutableSortedDictionary String FNode)

/-- The path component of a node's priority. -/
def priorityName : String := ".priority"

namespace FImmutableSortedDictionary

def isEmpty {K V : Type*} : FImmutableSortedDictionary K V → Bool
  | array keysAndValues => keysAndValues.isEmpty
  | tree root => root.isEmpty

end FImmutableSortedDictionary

namespace FNode

/-- FEmptyNode. -/
def emptyNode : FNode := node none (.array [])

def isEmpty : FNode → Bool
  | leaf .. => false
  | node _ children => children.isEmpty

/-- The assertions on a priority: none, or a string or number without one of its own. -/
def validatePriorityNode : FNode → Bool
  | leaf (.bool _) _ => false
  | leaf _ priorityNode => priorityNode.isEmpty
  | node priorityNode children => children.isEmpty && (priorityNode.getD emptyNode).isEmpty

/-- Only a leaf checks its priority. -/
def updatePriority (n aPriority : FNode) : Option FNode :=
  match n with
  | leaf value _ => if aPriority.validatePriorityNode then some (leaf value aPriority) else none
  | node _ children =>
      some (if children.isEmpty then emptyNode else node (some aPriority) children)

def getImmediateChild (n : FNode) (childName : String) : FNode :=
  match n with
  | leaf _ priorityNode => if childName = priorityName then priorityNode else emptyNode
  | node priorityNode children =>
      if childName = priorityName then priorityNode.getD emptyNode
      else (children.get keyOrder childName).getD emptyNode

def getChild (n : FNode) (path : List String) : FNode :=
  match path, n with
  | [], n => n
  | front :: _, leaf _ priorityNode => if front = priorityName then priorityNode else emptyNode
  | front :: rest, node priorityNode children =>
      ((node priorityNode children).getImmediateChild front).getChild rest

/-- A child of a node that has children or none yet; `none` is an exception. -/
def setChild (priorityNode : Option FNode) (children : FImmutableSortedDictionary String FNode)
    (childName : String) (newChildNode : FNode) : Option FNode :=
  let newChildren :=
    if newChildNode.isEmpty then some (children.removeKey keyOrder childName)
    else children.insertKey keyOrder childName newChildNode
  newChildren.map fun newChildren =>
    if newChildren.isEmpty then emptyNode
    else node (some (priorityNode.getD emptyNode)) newChildren

/-- A leaf that gets a child is replaced and leaves its priority. -/
def updateImmediateChild (n : FNode) (childName : String) (newChildNode : FNode) : Option FNode :=
  if childName = priorityName then n.updatePriority newChildNode
  else
    match n with
    | leaf value priorityNode =>
        if newChildNode.isEmpty then some (leaf value priorityNode)
        else (setChild none (.array []) childName newChildNode).bind fun childrenNode =>
          childrenNode.updatePriority priorityNode
    | node priorityNode children => setChild priorityNode children childName newChildNode

/-- The priority must be the last component. -/
def updateChild (n : FNode) (path : List String) (newChildNode : FNode) : Option FNode :=
  match path, n with
  | [], _ => some newChildNode
  | front :: rest, leaf value priorityNode =>
      if newChildNode.isEmpty ∧ front ≠ priorityName then some (leaf value priorityNode)
      else if front = priorityName ∧ rest ≠ [] then none
      else (emptyNode.updateChild rest newChildNode).bind fun child =>
        (leaf value priorityNode).updateImmediateChild front child
  | front :: rest, node priorityNode children =>
      if front = priorityName ∧ rest ≠ [] then none
      else
        let immediateChild := (node priorityNode children).getImmediateChild front
        (immediateChild.updateChild rest newChildNode).bind fun child =>
          (node priorityNode children).updateImmediateChild front child

end FNode

/-- The name of a child, which is not the one of the priority. -/
structure ChildName where
  name : String
  ne_priority : name ≠ priorityName
  deriving DecidableEq

/-- Names that tie are the same child. -/
instance : Setoid ChildName where
  r first second := keyOrder first.name second.name = .eq
  iseqv := ⟨fun _ => Std.ReflCmp.compare_self, fun h => Std.OrientedCmp.eq_symm h,
    fun h h' => Std.TransCmp.eq_trans h h'⟩

instance : DecidableRel fun first second : ChildName => first ≈ second :=
  fun first second => inferInstanceAs (Decidable (keyOrder first.name second.name = .eq))

namespace FNode

def leafValue : FNode → Option LeafValue
  | leaf value _ => some value
  | node .. => none

/-- The value at the end of a path. -/
def leafAt (n : FNode) (path : List ChildName) : Option LeafValue :=
  (n.getChild (path.map ChildName.name)).leafValue

/-- No node without children but the empty one, which is nobody's child. -/
inductive Pruned : FNode → Prop where
  | ofLeaf {value : LeafValue} {priorityNode : FNode} : Pruned (leaf value priorityNode)
  | ofEmpty : Pruned emptyNode
  | ofChildren {priorityNode : Option FNode} {children : FImmutableSortedDictionary String FNode} :
      WellFormed keyOrder children → children.entries ≠ [] →
      (∀ entry ∈ children.entries, entry.1 ≠ priorityName) →
      (∀ entry ∈ children.entries, Pruned entry.2) →
      (∀ entry ∈ children.entries, entry.2.isEmpty = false) → Pruned (node priorityNode children)

/-- What the children of a pruned node are. -/
structure Family (children : FImmutableSortedDictionary String FNode) : Prop where
  wellFormed : WellFormed keyOrder children
  names : ∀ entry ∈ children.entries, entry.1 ≠ priorityName
  pruned : ∀ entry ∈ children.entries, Pruned entry.2
  nonempty : ∀ entry ∈ children.entries, entry.2.isEmpty = false

section Shape

variable {n : FNode} {priorityNode : Option FNode}
  {children : FImmutableSortedDictionary String FNode}

theorem isEmpty_iff : children.isEmpty = true ↔ children.entries = [] := by
  cases children with
  | array => exact List.isEmpty_iff
  | tree root => cases root <;> simp [FImmutableSortedDictionary.isEmpty,
      FImmutableSortedDictionary.entries, FLLRBNode.entries]

theorem Family.nil : Family (.array []) :=
  ⟨⟨List.Pairwise.nil, Nat.zero_le _⟩, fun _ h => absurd h List.not_mem_nil,
    fun _ h => absurd h List.not_mem_nil, fun _ h => absurd h List.not_mem_nil⟩

theorem Pruned.family (h : Pruned (node priorityNode children)) : Family children := by
  cases h with
  | ofEmpty => exact .nil
  | ofChildren hWellFormed _ hNames hPruned hNonempty =>
      exact ⟨hWellFormed, hNames, hPruned, hNonempty⟩

theorem Family.pruned_node (h : Family children) (hSome : children.isEmpty = false) :
    Pruned (node priorityNode children) := by
  refine .ofChildren h.wellFormed (fun hNil => ?_) h.names h.pruned h.nonempty
  rw [isEmpty_iff.mpr hNil] at hSome
  cases hSome

theorem Pruned.eq_emptyNode (h : Pruned n) (hEmpty : n.isEmpty = true) : n = emptyNode := by
  cases h with
  | ofLeaf => cases hEmpty
  | ofEmpty => rfl
  | ofChildren _ hSome => exact absurd (isEmpty_iff.mp hEmpty) hSome

/-- The child that is there, or the empty node. -/
theorem Family.child (h : Family children) (name : String) :
    Pruned ((children.get keyOrder name).getD emptyNode) := by
  rw [FImmutableSortedDictionary.get_eq_lookup h.wellFormed]
  cases hLookup : SortedEntries.lookup keyOrder name children.entries with
  | none => exact .ofEmpty
  | some child =>
      obtain ⟨entry, hMem, -, rfl⟩ := SortedEntries.exists_mem_of_lookup hLookup
      exact h.pruned entry hMem

end Shape

section View

variable {n : FNode} {name : ChildName} {path : List ChildName}

theorem leafAt_nil (n : FNode) : n.leafAt [] = n.leafValue := rfl

@[simp] theorem getImmediateChild_leaf (value : LeafValue) (priorityNode : FNode)
    (name : ChildName) : (leaf value priorityNode).getImmediateChild name.name = emptyNode :=
  if_neg name.ne_priority

@[simp] theorem getImmediateChild_node (priorityNode : Option FNode)
    (children : FImmutableSortedDictionary String FNode) (name : ChildName) :
    (node priorityNode children).getImmediateChild name.name =
      (children.get keyOrder name.name).getD emptyNode :=
  if_neg name.ne_priority

theorem leafAt_emptyNode (path : List ChildName) : emptyNode.leafAt path = none := by
  induction path with
  | nil => rfl
  | cons name path ih =>
      have hCons : emptyNode.leafAt (name :: path) =
          (emptyNode.getImmediateChild name.name).leafAt path := rfl
      have hChild : emptyNode.getImmediateChild name.name = emptyNode :=
        getImmediateChild_node ..
      rw [hCons, hChild, ih]

/-- There is nothing below a leaf. -/
theorem leafAt_leaf_cons {value : LeafValue} {priorityNode : FNode} :
    (leaf value priorityNode).leafAt (name :: path) = none :=
  congrArg leafValue (if_neg name.ne_priority)

theorem leafAt_cons (n : FNode) (name : ChildName) (path : List ChildName) :
    n.leafAt (name :: path) = (n.getImmediateChild name.name).leafAt path := by
  cases n with
  | node => rfl
  | leaf value priorityNode =>
      rw [leafAt_leaf_cons, getImmediateChild_leaf, leafAt_emptyNode]

/-- Nothing written below a leaf leaves its value. -/
theorem graft_leaf {value : LeafValue} {priorityNode : FNode}
    {sub : List ChildName → Option LeafValue} (hSub : PathStore.Empty sub) :
    graft (leaf value priorityNode).leafAt (name :: path) sub =
      (leaf value priorityNode).leafAt := by
  funext query
  cases query with
  | nil => rw [PathStore.graft_cons_nil, if_pos hSub]
  | cons first tail =>
      by_cases hSame : first ≈ name
      · rw [PathStore.graft_cons_of_same hSame, leafAt_leaf_cons]
        exact PathStore.Empty.graft (fun _ => leafAt_leaf_cons) hSub tail
      · rw [PathStore.graft_cons_of_not_same hSame]

/-- A pruned node that is not empty has a value somewhere. -/
theorem Pruned.isEmpty_iff_empty (h : Pruned n) : n.isEmpty = true ↔ PathStore.Empty n.leafAt := by
  constructor
  · intro hEmpty
    rw [h.eq_emptyNode hEmpty]
    exact leafAt_emptyNode
  · intro hNone
    induction h with
    | @ofLeaf value _ => cases (hNone []).symm.trans (leafAt_nil _)
    | ofEmpty => rfl
    | @ofChildren _ children hWellFormed hSome hNames _ hNonempty ih =>
        obtain ⟨entry, hMem⟩ := List.exists_mem_of_ne_nil _ hSome
        let name : ChildName := ⟨entry.1, hNames entry hMem⟩
        have hChild (priorityNode : Option FNode) :
            (node priorityNode children).getImmediateChild name.name = entry.2 := by
          rw [getImmediateChild_node, FImmutableSortedDictionary.get_eq_lookup hWellFormed,
            SortedEntries.lookup_of_mem hWellFormed.1 hMem, Option.getD_some]
        have hInner : entry.2.isEmpty = true := ih entry hMem fun path => by
          have hPath := hNone (name :: path)
          rwa [leafAt_cons, hChild] at hPath
        rw [hNonempty entry hMem] at hInner
        cases hInner

end View

section Update

variable {priorityNode : Option FNode} {children : FImmutableSortedDictionary String FNode}
  {newChildNode : FNode}

/-- A node with children, or the empty one, and what it has at each name. -/
structure Replaced (view : ChildName → FNode) (n : FNode) : Prop where
  pruned : Pruned n
  branch : n.leafValue = none
  child : ∀ name, n.getImmediateChild name.name = view name

theorem Family.removeKey (h : Family children) (name : ChildName) :
    Family (children.removeKey keyOrder name.name) ∧ ∀ other : ChildName,
      (children.removeKey keyOrder name.name).get keyOrder other.name =
        if other ≈ name then none else children.get keyOrder other.name := by
  obtain ⟨hWellFormed, hEntries⟩ := FImmutableSortedDictionary.removeKey_spec h.wellFormed name.name
  have hOld : ∀ entry ∈ (children.removeKey keyOrder name.name).entries,
      entry ∈ children.entries := by
    rw [hEntries]
    exact fun entry hMem => (List.mem_filter.mp hMem).1
  refine ⟨⟨hWellFormed, fun entry hMem => h.names entry (hOld entry hMem),
    fun entry hMem => h.pruned entry (hOld entry hMem),
    fun entry hMem => h.nonempty entry (hOld entry hMem)⟩, fun other => ?_⟩
  rw [FImmutableSortedDictionary.get_eq_lookup hWellFormed, hEntries, SortedEntries.lookup_erase,
    FImmutableSortedDictionary.get_eq_lookup h.wellFormed]
  rfl

theorem Family.insertKey (h : Family children) (name : ChildName) (hNew : Pruned newChildNode)
    (hSome : newChildNode.isEmpty = false) :
    ∃ children', children.insertKey keyOrder name.name newChildNode = some children' ∧
      Family children' ∧ ∀ other : ChildName, children'.get keyOrder other.name =
        if other ≈ name then some newChildNode else children.get keyOrder other.name := by
  obtain ⟨children', rekey, hInsert, hWellFormed, hEntries⟩ :=
    FImmutableSortedDictionary.insertKey_spec h.wellFormed name.name newChildNode
  refine ⟨children', hInsert, ⟨hWellFormed, fun entry hMem => ?_, fun entry hMem => ?_,
    fun entry hMem => ?_⟩, fun other => ?_⟩
  · rw [hEntries] at hMem
    rcases SortedEntries.key_mem_insert hMem with hKey | hKey
    · exact hKey ▸ name.ne_priority
    · obtain ⟨old, hOld, hSame⟩ := List.mem_map.mp hKey
      exact hSame ▸ h.names old hOld
  · rw [hEntries] at hMem
    rcases SortedEntries.mem_insert hMem with hOld | ⟨-, hValue⟩
    · exact h.pruned entry hOld
    · exact hValue ▸ hNew
  · rw [hEntries] at hMem
    rcases SortedEntries.mem_insert hMem with hOld | ⟨-, hValue⟩
    · exact h.nonempty entry hOld
    · exact hValue ▸ hSome
  · rw [FImmutableSortedDictionary.get_eq_lookup hWellFormed, hEntries, SortedEntries.lookup_insert,
      FImmutableSortedDictionary.get_eq_lookup h.wellFormed]
    rfl

/-- What a node with these children is, if it is not replaced by the empty one. -/
theorem Family.replaced (h : Family children) (priorityNode : Option FNode) :
    Replaced (fun other => (children.get keyOrder other.name).getD emptyNode)
      (if children.isEmpty then emptyNode else node priorityNode children) := by
  cases hEmpty : children.isEmpty with
  | false =>
      rw [if_neg Bool.false_ne_true]
      exact ⟨h.pruned_node hEmpty, rfl, getImmediateChild_node _ _⟩
  | true =>
      rw [if_pos rfl]
      refine ⟨.ofEmpty, rfl, fun other => ?_⟩
      have hNone : children.get keyOrder other.name = none := by
        rw [FImmutableSortedDictionary.get_eq_lookup h.wellFormed, isEmpty_iff.mp hEmpty]
        rfl
      rw [hNone]
      exact if_neg other.ne_priority

theorem Family.setChild (h : Family children) (name : ChildName) (hNew : Pruned newChildNode) :
    ∃ n', setChild priorityNode children name.name newChildNode = some n' ∧
      Replaced (fun other => if other ≈ name then newChildNode
        else (children.get keyOrder other.name).getD emptyNode) n' := by
  obtain ⟨newChildren, hStep, hFamily, hGet⟩ : ∃ newChildren,
      (if newChildNode.isEmpty then some (children.removeKey keyOrder name.name)
        else children.insertKey keyOrder name.name newChildNode) = some newChildren ∧
      Family newChildren ∧ ∀ other : ChildName,
        (newChildren.get keyOrder other.name).getD emptyNode =
          if other ≈ name then newChildNode
          else (children.get keyOrder other.name).getD emptyNode := by
    cases hEmpty : newChildNode.isEmpty with
    | true =>
        obtain ⟨hFamily, hGet⟩ := h.removeKey name
        refine ⟨_, if_pos rfl, hFamily, fun other => ?_⟩
        rw [hGet, hNew.eq_emptyNode hEmpty]
        split_ifs <;> rfl
    | false =>
        obtain ⟨children', hInsert, hFamily, hGet⟩ := h.insertKey name hNew hEmpty
        refine ⟨children', (if_neg Bool.false_ne_true).trans hInsert, hFamily, fun other => ?_⟩
        rw [hGet]
        split_ifs <;> rfl
  refine ⟨_, ?_, funext hGet ▸ hFamily.replaced (some (priorityNode.getD emptyNode))⟩
  rw [FNode.setChild, hStep, Option.map_some]

theorem Replaced.updatePriority {view : ChildName → FNode} {n : FNode} (h : Replaced view n)
    (aPriority : FNode) : ∃ n', n.updatePriority aPriority = some n' ∧ Replaced view n' := by
  cases n with
  | leaf => cases h.branch
  | node priorityNode children =>
      have hView : (fun other : ChildName => (children.get keyOrder other.name).getD emptyNode) =
          view := by
        funext other
        rw [← h.child other, getImmediateChild_node]
      exact ⟨_, rfl, hView ▸ h.pruned.family.replaced _⟩

theorem getImmediateChild_congr {n : FNode} (hn : Pruned n) {name other : ChildName}
    (h : other ≈ name) : n.getImmediateChild other.name = n.getImmediateChild name.name := by
  cases n with
  | leaf => rw [getImmediateChild_leaf, getImmediateChild_leaf]
  | node priorityNode children =>
      have hWellFormed := hn.family.wellFormed
      rw [getImmediateChild_node, getImmediateChild_node,
        FImmutableSortedDictionary.get_eq_lookup hWellFormed,
        FImmutableSortedDictionary.get_eq_lookup hWellFormed, SortedEntries.lookup_congr h]

/-- The values after a child is replaced: the old ones, but for those below its name. -/
theorem Replaced.leafAt {n n' child : FNode} {name : ChildName} {path : List ChildName}
    {sub : List ChildName → Option LeafValue} (hn : Pruned n)
    (h : Replaced (fun other => if other ≈ name then child else n.getImmediateChild other.name) n')
    (hChild : child.leafAt = graft (n.getImmediateChild name.name).leafAt path sub)
    (hRoot : n.leafValue = none ∨ ¬PathStore.Empty sub) :
    n'.leafAt = graft n.leafAt (name :: path) sub := by
  funext query
  cases query with
  | nil =>
      rw [PathStore.graft_cons_nil, leafAt_nil, leafAt_nil, h.branch]
      split_ifs with hEmpty
      · exact (hRoot.resolve_right (not_not_intro hEmpty)).symm
      · rfl
  | cons first tail =>
      rw [leafAt_cons, h.child]
      by_cases hSame : first ≈ name
      · have hBelow : (fun below => n.leafAt (first :: below)) =
            (n.getImmediateChild name.name).leafAt := by
          funext below
          rw [leafAt_cons, getImmediateChild_congr hn hSame]
        rw [if_pos hSame, PathStore.graft_cons_of_same hSame, hBelow, hChild]
      · rw [if_neg hSame, PathStore.graft_cons_of_not_same hSame, leafAt_cons]

section Child

variable {name : ChildName} {child : FNode} {path : List String}

/-- A path to a child does not end at the priority. -/
theorem not_priority (name : ChildName) (path : List String) :
    ¬(name.name = priorityName ∧ path ≠ []) :=
  fun hFront => name.ne_priority hFront.1

/-- A node with children has its child replaced. -/
theorem Family.updateChild (h : Family children) (hPruned : Pruned child)
    (hUpdate : ((node priorityNode children).getImmediateChild name.name).updateChild path
      newChildNode = some child) :
    ∃ n', (node priorityNode children).updateChild (name.name :: path) newChildNode = some n' ∧
      Replaced (fun other => if other ≈ name then child
        else (node priorityNode children).getImmediateChild other.name) n' := by
  obtain ⟨n', hSet, hReplaced⟩ := @Family.setChild priorityNode _ _ h name hPruned
  refine ⟨n', ?_, ?_⟩
  · rw [FNode.updateChild, if_neg (not_priority name path)]
    dsimp only
    rw [hUpdate, Option.bind_some, updateImmediateChild, if_neg name.ne_priority]
    exact hSet
  · simp only [getImmediateChild_node]
    exact hReplaced

/-- A leaf gives way to a node with one child. -/
theorem updateChild_leaf {value : LeafValue} {priorityNode : FNode}
    (hNew : newChildNode.isEmpty = false) (hPruned : Pruned child)
    (hChild : child.isEmpty = false)
    (hUpdate : emptyNode.updateChild path newChildNode = some child) :
    ∃ n', (leaf value priorityNode).updateChild (name.name :: path) newChildNode = some n' ∧
      Replaced (fun other => if other ≈ name then child
        else (leaf value priorityNode).getImmediateChild other.name) n' := by
  obtain ⟨m, hSet, hSetReplaced⟩ := @Family.setChild none _ _ Family.nil name hPruned
  obtain ⟨n', hPriority, hReplaced⟩ := hSetReplaced.updatePriority priorityNode
  refine ⟨n', ?_, ?_⟩
  · have hWritten : ¬(newChildNode.isEmpty = true ∧ name.name ≠ priorityName) := by simp [hNew]
    rw [FNode.updateChild, if_neg hWritten, if_neg (not_priority name path), hUpdate,
      Option.bind_some, updateImmediateChild, if_neg name.ne_priority]
    simp only [hChild, Bool.false_eq_true, if_false, hSet, Option.bind_some, hPriority]
  · simp only [getImmediateChild_leaf]
    exact hReplaced

end Child

/-- Writing a node at a path raises nothing and leaves the tree pruned; its values are
those of the tree with the node's values grafted at the path. -/
theorem updateChild_spec {n : FNode} (h : Pruned n) (hNew : Pruned newChildNode)
    (path : List ChildName) :
    ∃ n', n.updateChild (path.map ChildName.name) newChildNode = some n' ∧ Pruned n' ∧
      n'.leafAt = graft n.leafAt path newChildNode.leafAt := by
  induction path generalizing n with
  | nil => exact ⟨newChildNode, by cases n <;> rfl, hNew, PathStore.graft_nil.symm⟩
  | cons name path ih =>
      cases n with
      | node priorityNode children =>
          have hOld : Pruned ((node priorityNode children).getImmediateChild name.name) := by
            rw [getImmediateChild_node]
            exact h.family.child name.name
          obtain ⟨child, hUpdate, hPruned, hChild⟩ := ih hOld
          obtain ⟨n', hWrite, hReplaced⟩ := h.family.updateChild hPruned hUpdate
          exact ⟨n', hWrite, hReplaced.pruned, hReplaced.leafAt h hChild (.inl rfl)⟩
      | leaf value priorityNode =>
          cases hEmpty : newChildNode.isEmpty with
          | true =>
              refine ⟨leaf value priorityNode, ?_, h, ?_⟩
              · rw [List.map_cons, updateChild, if_pos ⟨hEmpty, name.ne_priority⟩]
              · exact (graft_leaf (hNew.isEmpty_iff_empty.mp hEmpty)).symm
          | false =>
              have hSub : ¬PathStore.Empty newChildNode.leafAt := fun hNone => by
                rw [hNew.isEmpty_iff_empty.mpr hNone] at hEmpty
                cases hEmpty
              obtain ⟨child, hUpdate, hPruned, hChild⟩ := @ih emptyNode .ofEmpty
              have hSome : child.isEmpty = false := by
                -- an empty child would have taken the written values with it
                rw [Bool.eq_false_iff]
                intro hNone
                have hGraft := hPruned.isEmpty_iff_empty.mp hNone
                rw [hChild] at hGraft
                exact hSub hGraft.of_graft
              obtain ⟨n', hWrite, hReplaced⟩ :=
                @updateChild_leaf _ name _ _ value priorityNode hEmpty hPruned hSome hUpdate
              refine ⟨n', hWrite, hReplaced.pruned, hReplaced.leafAt h ?_ (.inr hSub)⟩
              rw [getImmediateChild_leaf]
              exact hChild

end Update

/-- A node to be set at a path. -/
structure Write where
  path : List ChildName
  newNode : FNode
  pruned : Pruned newNode

def Write.apply (n : FNode) (write : Write) : Option FNode :=
  n.updateChild (write.path.map ChildName.name) write.newNode

section Run

variable {n : FNode}

/-- No writes raise anything, and the values are those of the writes grafted one after
the other. -/
theorem run_leafAt (h : Pruned n) (writes : List Write) :
    ∃ n', Transition.run Write.apply n writes = some n' ∧ Pruned n' ∧
      n'.leafAt =
        writes.foldl (fun store write => graft store write.path write.newNode.leafAt) n.leafAt := by
  induction writes generalizing n with
  | nil => exact ⟨n, rfl, h, rfl⟩
  | cons write writes ih =>
      obtain ⟨m, hWrite, hPruned, hLeaves⟩ := updateChild_spec h write.pruned write.path
      obtain ⟨n', hRun, hFinal, hValues⟩ := ih hPruned
      refine ⟨n', (Transition.run_cons_eq_some _).mpr ⟨m, hWrite, hRun⟩, hFinal, ?_⟩
      rw [hValues, hLeaves, List.foldl_cons]

/-- Two writes at paths apart leave the same values in either order. -/
theorem writes_comm (h : Pruned n) {first second : Write}
    (hApart : PathStore.Apart first.path second.path) :
    ∃ m m', Transition.run Write.apply n [first, second] = some m ∧
      Transition.run Write.apply n [second, first] = some m' ∧ m.leafAt = m'.leafAt := by
  have hBoth (write later : Write) : ∃ m, Transition.run Write.apply n [write, later] = some m ∧
      m.leafAt = graft (graft n.leafAt write.path write.newNode.leafAt) later.path
        later.newNode.leafAt := by
    obtain ⟨m, hWrite, hPruned, hLeaves⟩ := updateChild_spec h write.pruned write.path
    obtain ⟨m', hLater, -, hValues⟩ := updateChild_spec hPruned later.pruned later.path
    refine ⟨m', ?_, by rw [hValues, hLeaves]⟩
    exact (Transition.run_cons_eq_some _).mpr
      ⟨m, hWrite, (Transition.run_cons_eq_some _).mpr ⟨m', hLater, rfl⟩⟩
  obtain ⟨m, hRun, hLeaves⟩ := hBoth first second
  obtain ⟨m', hRun', hLeaves'⟩ := hBoth second first
  exact ⟨m, m', hRun, hRun', by rw [hLeaves, hLeaves', PathStore.graft_comm hApart]⟩

end Run

end FNode

namespace Contest

/-- A score of a judge for the seventh team. -/
def scoreWrite (judgeId : JudgeId) (h : judgeId.key ≠ priorityName) (score : ℚ) : FNode.Write :=
  ⟨[⟨"scores", by decide⟩, ⟨"7", by decide⟩, ⟨judgeId.key, h⟩, ⟨"innovation", by decide⟩],
    .leaf (.number score) FNode.emptyNode, .ofLeaf⟩

def scoreA : FNode.Write := scoreWrite judgeA (by decide) 3

def scoreB : FNode.Write := scoreWrite judgeB (by decide) 5

theorem scores_run :
    ∃ n', Transition.run FNode.Write.apply FNode.emptyNode [scoreA, scoreB] = some n' ∧
      FNode.Pruned n' ∧ n'.leafAt = [scoreA, scoreB].foldl
        (fun store write => graft store write.path write.newNode.leafAt)
        FNode.emptyNode.leafAt :=
  FNode.run_leafAt .ofEmpty _

theorem scores_comm :
    ∃ m m', Transition.run FNode.Write.apply FNode.emptyNode [scoreA, scoreB] = some m ∧
      Transition.run FNode.Write.apply FNode.emptyNode [scoreB, scoreA] = some m' ∧
      m.leafAt = m'.leafAt :=
  FNode.writes_comm .ofEmpty ⟨by decide +kernel, by decide +kernel⟩

end Contest

end CICJudging
