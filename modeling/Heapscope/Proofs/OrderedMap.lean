import Heapscope.OrderedMap
import Mathlib.Algebra.GroupWithZero.Nat
import Mathlib.Data.List.Nodup
import Mathlib.Data.List.Perm.Subperm

/-!
# Looking up in maps in order of insertion

Looking up a key finds the one pair with this key; inserting and erasing change what is found under
their own key only.

* `find?_eq_some_iff` -- a value is found exactly when its pair is an entry;
* `find?_insert`, `find?_erase` -- what is found after a change;
* `entries_insert_of_fresh`, `ofList_entries` -- a new key goes to the end, so a map is made from its
  pairs;
* `erase_split` -- erasing a key takes out its one entry;
* `size_le_two_pow` -- a map has no more keys than there are.
-/

namespace Heapscope

namespace OrderedMap

variable {κ ν : Type} [DecidableEq κ]

omit [DecidableEq κ] in
/-- Pairs with the same key are the same. -/
theorem eq_of_mem_entries {m : OrderedMap κ ν} {k : κ} {v w : ν} (hv : (k, v) ∈ m.entries)
    (hw : (k, w) ∈ m.entries) : v = w := by
  have same := List.inj_on_of_nodup_map m.distinct hv hw rfl
  exact (Prod.mk.inj same).2

omit [DecidableEq κ] in
/-- Maps with the same pairs in the same order are the same. -/
theorem ext {m m' : OrderedMap κ ν} (same : m.entries = m'.entries) : m = m' := by
  cases m
  cases same
  rfl

theorem size_le_two_pow {ν : Type} (m : OrderedMap UInt32 ν) : m.size ≤ 2 ^ 32 := by
  have numbers : ((m.entries.map Prod.fst).map UInt32.toNat).Nodup :=
    m.distinct.map fun _ _ => UInt32.toNat_inj.mp
  have small : (m.entries.map Prod.fst).map UInt32.toNat ⊆ List.range (2 ^ 32) := by
    intro n member
    obtain ⟨k, -, rfl⟩ := List.mem_map.mp member
    exact List.mem_range.mpr k.toNat_lt
  have count := (numbers.subperm small).length_le
  rw [List.length_range, List.length_map, List.length_map] at count
  exact count

omit [DecidableEq κ] in
theorem isEmpty_iff {m : OrderedMap κ ν} : m.isEmpty = true ↔ m = empty := by
  constructor
  · intro none
    exact ext (List.isEmpty_iff.mp none)
  · rintro rfl
    rfl

theorem find?_eq_some_iff {m : OrderedMap κ ν} {k : κ} {v : ν} :
    m.find? k = some v ↔ (k, v) ∈ m.entries := by
  unfold find?
  rw [Option.map_eq_some_iff]
  constructor
  · rintro ⟨⟨k', v'⟩, found, rfl⟩
    have key : k' = k := by simpa using List.find?_some found
    exact key ▸ List.mem_of_find?_eq_some found
  · intro member
    have isSome : (m.entries.find? fun e => e.1 == k).isSome :=
      List.find?_isSome.mpr ⟨(k, v), member, by simp⟩
    obtain ⟨⟨k', v'⟩, found⟩ := Option.isSome_iff_exists.mp isSome
    have key : k' = k := by simpa using List.find?_some found
    subst key
    exact ⟨_, found, eq_of_mem_entries (List.mem_of_find?_eq_some found) member⟩

theorem contains_eq_false_iff {m : OrderedMap κ ν} {k : κ} :
    m.contains k = false ↔ ∀ e ∈ m.entries, e.1 ≠ k := by
  unfold contains keys
  rw [← Bool.not_eq_true, List.contains_iff_mem, List.mem_map]
  exact ⟨fun absent e he key => absent ⟨e, he, key⟩, fun fresh ⟨e, he, key⟩ => fresh e he key⟩

theorem contains_eq_isSome (m : OrderedMap κ ν) (k : κ) : m.contains k = (m.find? k).isSome := by
  rw [Bool.eq_iff_iff, Option.isSome_iff_exists]
  unfold contains keys
  rw [List.contains_iff_mem, List.mem_map]
  constructor
  · rintro ⟨⟨k, v⟩, member, rfl⟩
    exact ⟨v, find?_eq_some_iff.mpr member⟩
  · rintro ⟨v, found⟩
    exact ⟨(k, v), find?_eq_some_iff.mp found, rfl⟩

@[simp] theorem entries_erase (m : OrderedMap κ ν) (k : κ) :
    (m.erase k).entries = m.entries.filter fun e => e.1 != k := rfl

/-- A new key goes to the end. -/
theorem entries_insert_of_fresh {m : OrderedMap κ ν} {k : κ} (v : ν)
    (fresh : ∀ e ∈ m.entries, e.1 ≠ k) : (m.insert k v).entries = m.entries ++ [(k, v)] := by
  have absent : k ∉ m.keys := by
    intro member
    obtain ⟨e, he, key⟩ := List.mem_map.mp member
    exact fresh e he key
  unfold insert
  rw [dif_neg absent]

/-- Pairs with new keys go to the end, in their order. -/
theorem entries_foldl_insert {m : OrderedMap κ ν} {l : List (κ × ν)}
    (distinct : ((m.entries ++ l).map Prod.fst).Nodup) :
    (l.foldl (fun m e => m.insert e.1 e.2) m).entries = m.entries ++ l := by
  induction l generalizing m with
  | nil => simp
  | cons e l ih =>
    have fresh : ∀ f ∈ m.entries, f.1 ≠ e.1 := by
      intro f member same
      rw [List.map_append, List.nodup_append] at distinct
      exact distinct.2.2 f.1 (List.mem_map_of_mem member) e.1 List.mem_cons_self same
    have first := entries_insert_of_fresh e.2 fresh
    rw [List.foldl_cons, ih (by rw [first]; simpa using distinct), first, List.append_assoc]
    rfl

/-- A map is made from its pairs. -/
theorem ofList_entries (m : OrderedMap κ ν) : ofList m.entries = m :=
  ext (entries_foldl_insert (m := empty) m.distinct)

theorem mem_entries_insert {m : OrderedMap κ ν} {k k' : κ} {v w : ν} :
    (k', w) ∈ (m.insert k v).entries ↔ if k' = k then w = v else (k', w) ∈ m.entries := by
  unfold insert
  by_cases present : k ∈ m.keys
  · rw [dif_pos present]
    simp only [List.mem_map]
    constructor
    · rintro ⟨e, he, eq⟩
      by_cases key : e.1 = k
      · rw [if_pos key] at eq
        cases eq
        rw [if_pos rfl]
      · rw [if_neg key] at eq
        subst eq
        rw [if_neg key]
        exact he
    · intro h
      by_cases key : k' = k
      · rw [if_pos key] at h
        subst key
        subst h
        obtain ⟨e, he, eq⟩ := List.mem_map.mp present
        exact ⟨e, he, by rw [if_pos eq]⟩
      · rw [if_neg key] at h
        exact ⟨(k', w), h, by rw [if_neg key]⟩
  · rw [dif_neg present]
    simp only [List.mem_append, List.mem_singleton, Prod.mk.injEq]
    by_cases key : k' = k
    · subst key
      have absent : (k', w) ∉ m.entries := fun h => present (List.mem_map_of_mem (f := Prod.fst) h)
      simp [absent]
    · simp [key]

theorem find?_insert (m : OrderedMap κ ν) (k k' : κ) (v : ν) :
    (m.insert k v).find? k' = if k' = k then some v else m.find? k' := by
  apply Option.ext
  intro w
  rw [find?_eq_some_iff, mem_entries_insert]
  by_cases key : k' = k
  · simp [key, eq_comm]
  · simp [key, find?_eq_some_iff]

theorem find?_erase (m : OrderedMap κ ν) (k k' : κ) :
    (m.erase k).find? k' = if k' = k then none else m.find? k' := by
  apply Option.ext
  intro w
  rw [find?_eq_some_iff, entries_erase, List.mem_filter]
  by_cases key : k' = k
  · simp [key]
  · simp [key, find?_eq_some_iff]

/-- A key goes to the end, whether or not it was there. -/
theorem entries_append (m : OrderedMap κ ν) (k : κ) (v : ν) :
    (m.append k v).entries = (m.entries.filter fun e => e.1 != k) ++ [(k, v)] := by
  refine entries_insert_of_fresh v ?_
  intro e member
  rw [entries_erase, List.mem_filter, bne_iff_ne] at member
  exact member.2

/-- What all entries have they have after one was moved to the end. -/
theorem forall_mem_append {m : OrderedMap κ ν} {k : κ} {v : ν} {P : κ × ν → Prop}
    (all : ∀ e ∈ m.entries, P e) (new : P (k, v)) : ∀ e ∈ (m.append k v).entries, P e := by
  rintro ⟨k', w⟩ member
  unfold append at member
  rw [mem_entries_insert] at member
  split at member
  · rename_i key
    rwa [key, member]
  · rw [entries_erase] at member
    exact all _ (List.mem_filter.mp member).1

/-- Erasing a key takes out its one entry, and leaves the entries around it. -/
theorem erase_split {m : OrderedMap κ ν} {k : κ} {v : ν} (found : m.find? k = some v) :
    ∃ front back, m.entries = front ++ (k, v) :: back ∧ (m.erase k).entries = front ++ back := by
  obtain ⟨front, back, split⟩ := List.append_of_mem (find?_eq_some_iff.mp found)
  have distinct := m.distinct
  rw [split, List.map_append, List.map_cons, List.nodup_append, List.nodup_cons] at distinct
  obtain ⟨-, ⟨absent_back, -⟩, apart⟩ := distinct
  have keep_front : front.filter (fun e => e.1 != k) = front := by
    rw [List.filter_eq_self]
    intro e he
    rw [bne_iff_ne]
    exact apart e.1 (List.mem_map_of_mem he) k List.mem_cons_self
  have keep_back : back.filter (fun e => e.1 != k) = back := by
    rw [List.filter_eq_self]
    intro e he
    rw [bne_iff_ne]
    exact fun key => absent_back (List.mem_map.mpr ⟨e, he, key⟩)
  have gone : ((k, v).1 != k) = false := bne_self_eq_false k
  refine ⟨front, back, split, ?_⟩
  rw [entries_erase, split, List.filter_append, List.filter_cons, gone, keep_front, keep_back]
  rfl

/-- Erasing a key takes the weight of its entry out of the sum. -/
theorem sum_entries_erase {m : OrderedMap κ ν} {k : κ} {v : ν} (weight : κ × ν → Nat)
    (found : m.find? k = some v) :
    (m.entries.map weight).sum = ((m.erase k).entries.map weight).sum + weight (k, v) := by
  obtain ⟨front, back, before, after⟩ := erase_split found
  rw [before, after]
  simp only [List.map_append, List.map_cons, List.sum_append, List.sum_cons]
  omega

theorem length_entries_erase {m : OrderedMap κ ν} {k : κ} {v : ν} (found : m.find? k = some v) :
    m.entries.length = (m.erase k).entries.length + 1 := by
  obtain ⟨front, back, before, after⟩ := erase_split found
  rw [before, after]
  simp only [List.length_append, List.length_cons]
  omega

end OrderedMap

end Heapscope
