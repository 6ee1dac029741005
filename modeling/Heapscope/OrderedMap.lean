/-!
# Maps in order of insertion

An `OrderedMap` holds pairwise distinct keys with a value each, in the order in which the keys were
first inserted.  Inserting under a present key replaces the value in place; erasing closes the gap.

* `find?` -- the value under a key;
* `insert`, `erase`, `append` -- replace or add at the end, remove, move to the end.
-/

namespace Heapscope

/-- Pairs with pairwise distinct keys, oldest first. -/
structure OrderedMap (κ ν : Type) where
  /-- The pairs, oldest key first. -/
  entries : List (κ × ν)
  /-- No key occurs twice. -/
  distinct : (entries.map Prod.fst).Nodup

namespace OrderedMap

variable {κ ν : Type} [DecidableEq κ]

def empty : OrderedMap κ ν := ⟨[], by simp⟩

instance : Inhabited (OrderedMap κ ν) := ⟨empty⟩

instance [DecidableEq ν] : DecidableEq (OrderedMap κ ν) := fun a b =>
  if h : a.entries = b.entries then .isTrue (by cases a; cases b; simp_all)
  else .isFalse (fun e => h (by rw [e]))

def keys (m : OrderedMap κ ν) : List κ := m.entries.map Prod.fst

def values (m : OrderedMap κ ν) : List ν := m.entries.map Prod.snd

def size (m : OrderedMap κ ν) : Nat := m.entries.length

def isEmpty (m : OrderedMap κ ν) : Bool := m.entries.isEmpty

/-- The value under a key. -/
def find? (m : OrderedMap κ ν) (k : κ) : Option ν :=
  (m.entries.find? fun e => e.1 == k).map Prod.snd

def contains (m : OrderedMap κ ν) (k : κ) : Bool := m.keys.contains k

/-- Removes a key; the keys after it move up. -/
def erase (m : OrderedMap κ ν) (k : κ) : OrderedMap κ ν where
  entries := m.entries.filter fun e => e.1 != k
  distinct := m.distinct.sublist (List.Sublist.map _ List.filter_sublist)

theorem fst_replace (k : κ) (v : ν) (l : List (κ × ν)) :
    (l.map fun e => if e.1 = k then (k, v) else e).map Prod.fst = l.map Prod.fst := by
  rw [List.map_map]
  apply List.map_congr_left
  intro e _
  by_cases h : e.1 = k <;> simp [h]

/-- Puts a value under a key: in place when the key is present, else at the end. -/
def insert (m : OrderedMap κ ν) (k : κ) (v : ν) : OrderedMap κ ν :=
  if h : k ∈ m.keys then
    ⟨m.entries.map fun e => if e.1 = k then (k, v) else e, by rw [fst_replace]; exact m.distinct⟩
  else
    ⟨m.entries ++ [(k, v)], by
      rw [List.map_append, List.nodup_append]
      refine ⟨m.distinct, by simp, ?_⟩
      intro a ha b hb e
      simp only [List.map_cons, List.map_nil, List.mem_singleton] at hb
      subst e; subst hb
      exact h ha⟩

/-- Puts a value under a key at the end, removing what the key held before. -/
def append (m : OrderedMap κ ν) (k : κ) (v : ν) : OrderedMap κ ν := (m.erase k).insert k v

/-- The map that results from inserting pairs one by one. -/
def ofList (l : List (κ × ν)) : OrderedMap κ ν := l.foldl (fun m e => m.insert e.1 e.2) empty

end OrderedMap

end Heapscope
