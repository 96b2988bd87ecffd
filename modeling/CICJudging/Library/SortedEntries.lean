import Mathlib

/-! Entries of keys and values in the strict order of a comparator: what is found
at a key, and what writing and removing a key does. Keys that tie are one key. -/
namespace SortedEntries

universe u v

variable {α : Type u} {β : Type v} (cmp : α → α → Ordering)

def Sorted (entries : List (α × β)) : Prop :=
  entries.Pairwise fun first second => cmp first.1 second.1 = .lt

instance (entries : List (α × β)) : Decidable (Sorted cmp entries) := by
  unfold Sorted
  infer_instance

def lookup (key : α) (entries : List (α × β)) : Option β :=
  (entries.find? fun entry => cmp key entry.1 == .eq).map Prod.snd

/-- A key that ties gets the value; whether it is replaced too is up to the caller. -/
def insert (rekey : Bool) (key : α) (value : β) : List (α × β) → List (α × β)
  | [] => [(key, value)]
  | entry :: rest =>
      match cmp key entry.1 with
      | .lt => (key, value) :: entry :: rest
      | .eq => (if rekey then key else entry.1, value) :: rest
      | .gt => entry :: insert rekey key value rest

def erase (key : α) (entries : List (α × β)) : List (α × β) :=
  entries.filter fun entry => cmp key entry.1 != .eq

/-- The entries of smaller keys. -/
def before (key : α) (entries : List (α × β)) : List (α × β) :=
  entries.filter fun entry => cmp key entry.1 == .gt

variable {cmp}

section Append

variable {key : α} {value : β} {rekey : Bool} {front back : List (α × β)}

theorem insert_append_right (h : ∀ entry ∈ front, cmp key entry.1 = .gt) :
    insert cmp rekey key value (front ++ back) = front ++ insert cmp rekey key value back := by
  induction front with
  | nil => rfl
  | cons entry rest ih =>
      rw [List.forall_mem_cons] at h
      rw [List.cons_append, insert, h.1, ih h.2, List.cons_append]

theorem insert_append_left (h : ∀ entry ∈ back, cmp key entry.1 = .lt) :
    insert cmp rekey key value (front ++ back) = insert cmp rekey key value front ++ back := by
  induction front with
  | nil =>
      cases back with
      | nil => rfl
      | cons entry rest => simp only [List.nil_append, insert, h entry (List.mem_cons_self ..),
          List.singleton_append]
  | cons entry rest ih =>
      rw [List.cons_append, insert, insert, ih]
      cases cmp key entry.1 <;> rfl

theorem erase_append : erase cmp key (front ++ back) = erase cmp key front ++ erase cmp key back :=
  List.filter_append ..

theorem erase_eq_self (h : ∀ entry ∈ front, cmp key entry.1 ≠ .eq) : erase cmp key front = front :=
  List.filter_eq_self.mpr fun entry hMem => bne_iff_ne.mpr (h entry hMem)

theorem lookup_append : lookup cmp key (front ++ back) =
    (lookup cmp key front).or (lookup cmp key back) := by
  rw [lookup, List.find?_append]
  cases hFront : front.find? fun entry => cmp key entry.1 == .eq with
  | none => rw [lookup, hFront]; rfl
  | some entry => rw [lookup, hFront]; rfl

theorem lookup_eq_none_iff :
    lookup cmp key front = none ↔ ∀ entry ∈ front, cmp key entry.1 ≠ .eq := by
  simp [lookup]

theorem before_append :
    before cmp key (front ++ back) = before cmp key front ++ before cmp key back :=
  List.filter_append ..

theorem before_eq_self (h : ∀ entry ∈ front, cmp key entry.1 = .gt) : before cmp key front = front :=
  List.filter_eq_self.mpr fun entry hMem => by rw [h entry hMem]; rfl

theorem before_eq_nil (h : ∀ entry ∈ front, cmp key entry.1 ≠ .gt) : before cmp key front = [] :=
  List.filter_eq_nil_iff.mpr fun entry hMem => by simpa using h entry hMem

end Append

theorem insert_perm {key : α} {value : β} {rekey : Bool} {entries : List (α × β)}
    (h : ∀ entry ∈ entries, cmp key entry.1 ≠ .eq) :
    (insert cmp rekey key value entries).Perm ((key, value) :: entries) := by
  induction entries with
  | nil => rfl
  | cons entry rest ih =>
      rw [List.forall_mem_cons] at h
      rw [insert]
      cases hKey : cmp key entry.1 with
      | lt => rfl
      | eq => exact absurd hKey h.1
      | gt => exact ((ih h.2).cons entry).trans (.swap ..)

theorem Sorted.append_iff {front back : List (α × β)} {entry : α × β} :
    Sorted cmp (front ++ entry :: back) ↔
      Sorted cmp front ∧ Sorted cmp back ∧ (∀ other ∈ front, cmp other.1 entry.1 = .lt) ∧
        (∀ other ∈ back, cmp entry.1 other.1 = .lt) ∧
        ∀ first ∈ front, ∀ second ∈ back, cmp first.1 second.1 = .lt := by
  simp only [Sorted, List.pairwise_append, List.pairwise_cons, List.forall_mem_cons]
  grind

section Split

variable [Std.TransCmp cmp] {key : α} {value : β} {rekey : Bool} {front back : List (α × β)}
  {entry : α × β}

theorem Sorted.lt_back (h : Sorted cmp (front ++ entry :: back)) (hKey : cmp key entry.1 = .lt) :
    ∀ other ∈ entry :: back, cmp key other.1 = .lt := by
  obtain ⟨-, -, -, hBack, -⟩ := Sorted.append_iff.mp h
  exact List.forall_mem_cons.mpr
    ⟨hKey, fun other hMem => Std.TransCmp.lt_trans hKey (hBack other hMem)⟩

theorem Sorted.gt_front (h : Sorted cmp (front ++ entry :: back)) (hKey : cmp key entry.1 ≠ .lt) :
    ∀ other ∈ front, cmp key other.1 = .gt := by
  obtain ⟨-, -, hFront, -, -⟩ := Sorted.append_iff.mp h
  intro other hMem
  have hSmaller := hFront other hMem
  refine Std.OrientedCmp.gt_of_lt (Std.TransCmp.lt_of_lt_of_isLE hSmaller ?_)
  exact Std.OrientedCmp.isLE_of_isGE (Ordering.isGE_iff_ne_lt.mpr hKey)

theorem Sorted.lt_back_of_eq (h : Sorted cmp (front ++ entry :: back))
    (hKey : cmp key entry.1 = .eq) : ∀ other ∈ back, cmp key other.1 = .lt := by
  obtain ⟨-, -, -, hBack, -⟩ := Sorted.append_iff.mp h
  exact fun other hMem => Std.TransCmp.lt_of_eq_of_lt hKey (hBack other hMem)

theorem insert_of_lt (h : Sorted cmp (front ++ entry :: back)) (hKey : cmp key entry.1 = .lt) :
    insert cmp rekey key value (front ++ entry :: back) =
      insert cmp rekey key value front ++ entry :: back :=
  insert_append_left (h.lt_back hKey)

theorem insert_of_eq (h : Sorted cmp (front ++ entry :: back)) (hKey : cmp key entry.1 = .eq) :
    insert cmp rekey key value (front ++ entry :: back) =
      front ++ (if rekey then key else entry.1, value) :: back := by
  rw [insert_append_right (h.gt_front (by rw [hKey]; decide)), insert, hKey]

theorem insert_of_gt (h : Sorted cmp (front ++ entry :: back)) (hKey : cmp key entry.1 = .gt) :
    insert cmp rekey key value (front ++ entry :: back) =
      front ++ entry :: insert cmp rekey key value back := by
  rw [insert_append_right (h.gt_front (by rw [hKey]; decide)), insert, hKey]

theorem erase_of_lt (h : Sorted cmp (front ++ entry :: back)) (hKey : cmp key entry.1 = .lt) :
    erase cmp key (front ++ entry :: back) = erase cmp key front ++ entry :: back := by
  have hBack : erase cmp key (entry :: back) = entry :: back :=
    erase_eq_self fun other hMem => by rw [h.lt_back hKey other hMem]; decide
  rw [erase_append, hBack]

theorem erase_of_eq (h : Sorted cmp (front ++ entry :: back)) (hKey : cmp key entry.1 = .eq) :
    erase cmp key (front ++ entry :: back) = front ++ back := by
  have hFront : erase cmp key front = front :=
    erase_eq_self fun other hMem => by
      rw [h.gt_front (by rw [hKey]; decide) other hMem]
      decide
  have hBack : erase cmp key back = back :=
    erase_eq_self fun other hMem => by
      rw [h.lt_back_of_eq hKey other hMem]
      decide
  have hEntry : erase cmp key (entry :: back) = erase cmp key back :=
    List.filter_cons_of_neg (by rw [hKey]; decide)
  rw [erase_append, hEntry, hFront, hBack]

theorem erase_of_gt (h : Sorted cmp (front ++ entry :: back)) (hKey : cmp key entry.1 = .gt) :
    erase cmp key (front ++ entry :: back) = front ++ entry :: erase cmp key back := by
  have hFront : erase cmp key front = front :=
    erase_eq_self fun other hMem => by
      rw [h.gt_front (by rw [hKey]; decide) other hMem]
      decide
  have hEntry : erase cmp key (entry :: back) = entry :: erase cmp key back :=
    List.filter_cons_of_pos (by rw [hKey]; decide)
  rw [erase_append, hEntry, hFront]

theorem lookup_of_lt (h : Sorted cmp (front ++ entry :: back)) (hKey : cmp key entry.1 = .lt) :
    lookup cmp key (front ++ entry :: back) = lookup cmp key front := by
  have hBack : lookup cmp key (entry :: back) = none :=
    lookup_eq_none_iff.mpr fun other hMem => by rw [h.lt_back hKey other hMem]; decide
  rw [lookup_append, hBack, Option.or_none]

theorem lookup_of_eq (h : Sorted cmp (front ++ entry :: back)) (hKey : cmp key entry.1 = .eq) :
    lookup cmp key (front ++ entry :: back) = some entry.2 := by
  have hFront : lookup cmp key front = none :=
    lookup_eq_none_iff.mpr fun other hMem => by
      rw [h.gt_front (by rw [hKey]; decide) other hMem]
      decide
  rw [lookup_append, hFront, Option.none_or, lookup, List.find?_cons_of_pos (by rw [hKey]; decide)]
  rfl

theorem lookup_of_gt (h : Sorted cmp (front ++ entry :: back)) (hKey : cmp key entry.1 = .gt) :
    lookup cmp key (front ++ entry :: back) = lookup cmp key back := by
  have hFront : lookup cmp key front = none :=
    lookup_eq_none_iff.mpr fun other hMem => by
      rw [h.gt_front (by rw [hKey]; decide) other hMem]
      decide
  rw [lookup_append, hFront, Option.none_or, lookup,
    List.find?_cons_of_neg (by rw [hKey]; decide), lookup]

theorem before_of_lt (h : Sorted cmp (front ++ entry :: back)) (hKey : cmp key entry.1 = .lt) :
    before cmp key (front ++ entry :: back) = before cmp key front := by
  have hBack : before cmp key (entry :: back) = [] :=
    before_eq_nil fun other hMem => by rw [h.lt_back hKey other hMem]; decide
  rw [before_append, hBack, List.append_nil]

theorem before_of_eq (h : Sorted cmp (front ++ entry :: back)) (hKey : cmp key entry.1 = .eq) :
    before cmp key (front ++ entry :: back) = front := by
  have hBack : before cmp key (entry :: back) = [] := by
    refine before_eq_nil (List.forall_mem_cons.mpr ⟨by rw [hKey]; decide, fun other hMem => ?_⟩)
    rw [h.lt_back_of_eq hKey other hMem]
    decide
  rw [before_append, hBack, List.append_nil, before_eq_self (h.gt_front (by rw [hKey]; decide))]

theorem before_of_gt (h : Sorted cmp (front ++ entry :: back)) (hKey : cmp key entry.1 = .gt) :
    before cmp key (front ++ entry :: back) = front ++ entry :: before cmp key back := by
  have hEntry : before cmp key (entry :: back) = entry :: before cmp key back :=
    List.filter_cons_of_pos (by rw [hKey]; decide)
  rw [before_append, hEntry, before_eq_self (h.gt_front (by rw [hKey]; decide))]

theorem lookup_of_mem {entries : List (α × β)} (h : Sorted cmp entries) (hMem : entry ∈ entries) :
    lookup cmp entry.1 entries = some entry.2 := by
  obtain ⟨front, back, rfl⟩ := List.append_of_mem hMem
  exact lookup_of_eq h Std.ReflCmp.compare_self

end Split

theorem Sorted.erase {key : α} {entries : List (α × β)} (h : Sorted cmp entries) :
    Sorted cmp (erase cmp key entries) :=
  List.Pairwise.sublist List.filter_sublist h

theorem exists_mem_of_lookup {key : α} {value : β} {entries : List (α × β)}
    (h : lookup cmp key entries = some value) :
    ∃ entry ∈ entries, cmp key entry.1 = .eq ∧ entry.2 = value := by
  obtain ⟨entry, hFind, rfl⟩ := Option.map_eq_some_iff.mp h
  have hTie := List.find?_some hFind
  exact ⟨entry, List.mem_of_find?_eq_some hFind, beq_iff_eq.mp hTie, rfl⟩

theorem lookup_cons {key : α} {entries : List (α × β)} {entry : α × β} :
    lookup cmp key (entry :: entries) =
    if cmp key entry.1 = .eq then some entry.2 else lookup cmp key entries := by
  rw [lookup, List.find?_cons]
  split_ifs with hTie
  · rw [hTie]; rfl
  · rw [beq_false_of_ne hTie]; rfl

section Laws

variable [Std.TransCmp cmp] {key other : α} {value : β} {rekey : Bool} {entries : List (α × β)}

theorem mem_insert {entry : α × β} (h : entry ∈ insert cmp rekey key value entries) :
    entry ∈ entries ∨ cmp key entry.1 = .eq ∧ entry.2 = value := by
  induction entries with
  | nil =>
      rw [insert, List.mem_singleton] at h
      subst h
      exact .inr ⟨Std.ReflCmp.compare_self, rfl⟩
  | cons first rest ih =>
      rw [insert] at h
      split at h
      next =>
          rcases List.mem_cons.mp h with rfl | hMem
          · exact .inr ⟨Std.ReflCmp.compare_self, rfl⟩
          · exact .inl hMem
      next hTie =>
          rcases List.mem_cons.mp h with rfl | hMem
          · refine .inr ⟨?_, rfl⟩
            cases rekey
            · exact hTie
            · exact Std.ReflCmp.compare_self
          · exact .inl (List.mem_cons_of_mem _ hMem)
      next =>
          rcases List.mem_cons.mp h with rfl | hMem
          · exact .inl (List.mem_cons_self ..)
          · exact (ih hMem).imp (List.mem_cons_of_mem _) id

omit [Std.TransCmp cmp] in
theorem key_mem_insert {entry : α × β} (h : entry ∈ insert cmp rekey key value entries) :
    entry.1 = key ∨ entry.1 ∈ entries.map Prod.fst := by
  induction entries with
  | nil => exact .inl (congrArg Prod.fst (List.mem_singleton.mp h))
  | cons first rest ih =>
      rw [insert] at h
      split at h
      all_goals rcases List.mem_cons.mp h with rfl | hMem
      · exact .inl rfl
      · exact .inr (List.mem_map_of_mem hMem)
      · cases rekey
        · exact .inr (List.mem_cons_self ..)
        · exact .inl rfl
      · exact .inr (List.mem_map_of_mem (List.mem_cons_of_mem _ hMem))
      · exact .inr (List.mem_cons_self ..)
      · exact (ih hMem).imp_right fun hKey => List.mem_cons_of_mem _ hKey

theorem Sorted.insert (h : Sorted cmp entries) : Sorted cmp (insert cmp rekey key value entries) := by
  induction entries with
  | nil => exact List.pairwise_singleton ..
  | cons first rest ih =>
      rw [Sorted, List.pairwise_cons] at h
      rw [SortedEntries.insert]
      split
      next hSmaller =>
          refine List.pairwise_cons.mpr ⟨List.forall_mem_cons.mpr ⟨hSmaller, fun later hMem => ?_⟩,
            List.pairwise_cons.mpr h⟩
          exact Std.TransCmp.lt_trans hSmaller (h.1 later hMem)
      next hTie =>
          refine List.pairwise_cons.mpr ⟨fun later hMem => ?_, h.2⟩
          cases rekey
          · exact h.1 later hMem
          · exact Std.TransCmp.lt_of_eq_of_lt hTie (h.1 later hMem)
      next hLarger =>
          refine List.pairwise_cons.mpr ⟨fun later hMem => ?_, ih h.2⟩
          rcases mem_insert hMem with hOld | ⟨hSame, -⟩
          · exact h.1 later hOld
          · exact Std.TransCmp.lt_of_lt_of_eq (Std.OrientedCmp.lt_of_gt hLarger) hSame

/-- A write is found at the keys that tie with its key, and changes nothing else. -/
theorem lookup_insert : lookup cmp other (insert cmp rekey key value entries) =
    if cmp other key = .eq then some value else lookup cmp other entries := by
  induction entries with
  | nil => rw [insert, lookup_cons]
  | cons first rest ih =>
      rw [insert]
      split
      next => rw [lookup_cons]
      next hTie =>
          have hKeys : cmp other (if rekey then key else first.1) = cmp other key := by
            cases rekey
            · exact (Std.TransCmp.congr_right hTie).symm
            · rfl
          rw [lookup_cons, lookup_cons, hKeys, Std.TransCmp.congr_right hTie]
          split_ifs <;> rfl
      next hLarger =>
          have hApart : cmp other first.1 = .eq → cmp other key ≠ .eq := by
            intro hFirst hKey
            rw [Std.TransCmp.eq_trans (Std.OrientedCmp.eq_symm hKey) hFirst] at hLarger
            cases hLarger
          rw [lookup_cons, lookup_cons, ih]
          by_cases hFirst : cmp other first.1 = .eq
          · rw [if_pos hFirst, if_pos hFirst, if_neg (hApart hFirst)]
          · rw [if_neg hFirst, if_neg hFirst]

theorem lookup_erase : lookup cmp other (erase cmp key entries) =
    if cmp other key = .eq then none else lookup cmp other entries := by
  induction entries with
  | nil => simp [erase, lookup]
  | cons first rest ih =>
      rw [lookup_cons]
      by_cases hTie : cmp key first.1 = .eq
      · have hErase : erase cmp key (first :: rest) = erase cmp key rest :=
          List.filter_cons_of_neg (by rw [hTie]; decide)
        rw [hErase, ih, Std.TransCmp.congr_right hTie]
        split_ifs <;> rfl
      · have hErase : erase cmp key (first :: rest) = first :: erase cmp key rest :=
          List.filter_cons_of_pos (bne_iff_ne.mpr hTie)
        have hApart : cmp other first.1 = .eq → cmp other key ≠ .eq := fun hFirst hKey =>
          hTie (Std.TransCmp.eq_trans (Std.OrientedCmp.eq_symm hKey) hFirst)
        rw [hErase, lookup_cons, ih]
        by_cases hFirst : cmp other first.1 = .eq
        · rw [if_pos hFirst, if_pos hFirst, if_neg (hApart hFirst)]
        · rw [if_neg hFirst, if_neg hFirst]

theorem lookup_congr (h : cmp key other = .eq) :
    lookup cmp key entries = lookup cmp other entries := by
  have hSame : (fun entry : α × β => cmp key entry.1 == .eq) = fun entry => cmp other entry.1 == .eq :=
    funext fun entry => by rw [Std.TransCmp.congr_left h]
  rw [lookup, lookup, hSame]

end Laws

end SortedEntries
