import Heapscope.Proofs.Micros
import Heapscope.Workload.Schedule
import Mathlib.Algebra.GroupWithZero.Nat

/-!
# Threads of a schedule

Scheduling walks nested threads in the middle of the threads around them, and hands the number for
the next thread along.  What comes out is a weave: the calls of all threads, each thread in the
order of its operations.

* `threadCalls` -- the calls of a thread, with all times in closed form;
* `Call.Performs`, `threadCalls_performs` -- what each of these calls is;
* `Weaves` -- a list is made up of given lists, each in its order;
* `schedule_weaves_all` -- a schedule weaves the calls of its threads, numbered in preorder.
-/

namespace Heapscope

/-! ## The clock of a thread -/

/-- How long an operation takes. -/
def Step.length (config : CompilerConfig) (s : Step) : Micros := s.duration.getD config.interval

/-- The calls of operations one after the other, the first of which starts at the given clock. -/
def callsFrom (config : CompilerConfig) (thread : Nat) (clock : Micros) : List Step → List Call
  | [] => []
  | s :: rest =>
    s.call config thread clock :: callsFrom config thread (clock + s.length config) rest

/-- The start of an operation of a thread after earlier ones: the offset and all their lengths, or
the last time there is. -/
def startAfter (config : CompilerConfig) (earlier : List Step) : Micros :=
  .ofNatSaturating
    (config.offset.count.toNat + (earlier.map fun s => (s.length config).count.toNat).sum)

/-- The calls of a thread with given operations. -/
def threadCalls (config : CompilerConfig) (thread : Nat) (steps : List Step) : List Call :=
  steps.mapIdx fun i s => s.call config thread (startAfter config (steps.take i))

theorem startAfter_nil (config : CompilerConfig) : startAfter config [] = config.offset := by
  have bound := config.offset.count.toNat_lt
  unfold startAfter
  rw [Micros.eq_iff, Micros.toNat_ofNatSaturating, List.map_nil, List.sum_nil]
  omega

/-- A clock that stops at the last time shows the sum of all lengths, as long as there is such a
time. -/
theorem startAfter_concat (config : CompilerConfig) (earlier : List Step) (s : Step) :
    startAfter config (earlier ++ [s]) = startAfter config earlier + s.length config := by
  unfold startAfter
  rw [Micros.eq_iff, Micros.toNat_add, Micros.toNat_ofNatSaturating, Micros.toNat_ofNatSaturating,
    List.map_append, List.sum_append, List.map_singleton, List.sum_singleton]
  omega

theorem callsFrom_startAfter (config : CompilerConfig) (thread : Nat) (earlier steps : List Step) :
    callsFrom config thread (startAfter config earlier) steps
      = steps.mapIdx fun i s =>
          s.call config thread (startAfter config (earlier ++ steps.take i)) := by
  induction steps generalizing earlier with
  | nil => rfl
  | cons s rest ih =>
    rw [callsFrom, ← startAfter_concat, ih, List.mapIdx_cons]
    simp

/-- The clock of a thread is the closed form. -/
theorem callsFrom_offset (config : CompilerConfig) (thread : Nat) (steps : List Step) :
    callsFrom config thread config.offset steps = threadCalls config thread steps := by
  have first := callsFrom_startAfter config thread [] steps
  rw [startAfter_nil] at first
  exact first

/-! ## The calls of a thread -/

/-- The operation and the key of a call that does what an action of a thread says.  The name of a
block is kept together with the thread. -/
inductive Action.Done (thread : ThreadId) : Action → Op → Option AllocationKey → Prop where
  | malloc {size : UInt32} {pinned : Option UInt32} {color : Option Color} :
      Done thread (.malloc size pinned color none) (.malloc size pinned color) none
  | mallocNamed {size : UInt32} {pinned : Option UInt32} {color : Option Color} {name : String} :
      Done thread (.malloc size pinned color (some name)) (.malloc size pinned color)
        (some (.inThread thread name))
  | freeNamed {name : String} :
      Done thread (.freeId name) (.free none none) (some (.inThread thread name))
  | freeAt {address : UInt32} :
      Done thread (.freeAddress address) (.free (some address) none) (some (.address address))
  | sleep : Done thread .sleep .sleep none
  | annotate {note : Note} : Done thread (.annotate note) (.annotate note) none

theorem Action.done (thread : ThreadId) (a : Action) : a.Done thread a.op (a.key thread) := by
  cases a with
  | malloc size pinned color id =>
    cases id with
    | none => exact .malloc
    | some name => exact .mallocNamed
  | freeId name => exact .freeNamed
  | freeAddress address => exact .freeAt
  | sleep => exact .sleep
  | annotate note => exact .annotate

/-- A list is made up of given lists, each in its order. -/
structure Weaves (calls : List Call) (threads : List (List Call)) : Prop where
  perm : calls.Perm threads.flatten
  sublist : ∀ thread ∈ threads, thread.Sublist calls

namespace Weaves

variable {xs ys own own' : List Call} {threads more : List (List Call)}

theorem nil : Weaves [] [[]] where
  perm := .nil
  sublist := by
    intro thread member
    cases List.mem_singleton.mp member
    exact .slnil

theorem singleton (c : Call) : Weaves [c] [[c]] where
  perm := .refl _
  sublist := by
    intro thread member
    cases List.mem_singleton.mp member
    exact List.Sublist.refl [c]

/-- A thread without calls may be put in front. -/
theorem idle (h : Weaves xs threads) : Weaves xs ([] :: threads) where
  perm := h.perm
  sublist := List.forall_mem_cons.mpr ⟨List.nil_sublist xs, h.sublist⟩

theorem of_idle (h : Weaves xs ([] :: threads)) : Weaves xs threads where
  perm := h.perm
  sublist := (List.forall_mem_cons.mp h.sublist).2

/-- The first threads of two weaves are one thread of the weaves together. -/
theorem append (hx : Weaves xs (own :: threads)) (hy : Weaves ys (own' :: more)) :
    Weaves (xs ++ ys) ((own ++ own') :: (threads ++ more)) where
  perm := by
    -- the rest of the first list moves behind the first thread of the second
    have regroup : ((own ++ threads.flatten) ++ (own' ++ more.flatten)).Perm
        ((own ++ own') ++ (threads.flatten ++ more.flatten)) := by
      rw [List.append_assoc, List.append_assoc]
      refine List.Perm.append_left own ?_
      rw [← List.append_assoc, ← List.append_assoc]
      exact List.perm_append_comm.append_right _
    rw [List.flatten_cons, List.flatten_append]
    exact (hx.perm.append hy.perm).trans regroup
  sublist := by
    obtain ⟨first, others⟩ := List.forall_mem_cons.mp hx.sublist
    obtain ⟨first', others'⟩ := List.forall_mem_cons.mp hy.sublist
    refine List.forall_mem_cons.mpr ⟨first.append first', ?_⟩
    intro thread member
    rcases List.mem_append.mp member with before | after
    · exact (others thread before).trans (List.sublist_append_left xs ys)
    · exact (others' thread after).trans (List.sublist_append_right xs ys)

end Weaves

/-! ## Schedules -/

namespace Item

/-- The operation that an item is. -/
def step? : Item → Option Step
  | .step s => some s
  | .thread _ => none

mutual

/-- The operations of each thread of an item, in preorder. -/
def threads : Item → List (List Step)
  | .step _ => []
  | .thread body => body.filterMap step? :: threadsAll body

/-- The operations of each thread of items, in preorder. -/
def threadsAll : List Item → List (List Step)
  | [] => []
  | item :: rest => threads item ++ threadsAll rest

end

/-- Threads are no operations. -/
theorem filterMap_step_of_all {items : List Item} (all : items.all isThread = true) :
    items.filterMap step? = [] := by
  rw [List.filterMap_eq_nil_iff]
  intro item member
  cases item with
  | thread body => rfl
  | step s => cases List.all_eq_true.mp all _ member

theorem filterMap_step_cons (item : Item) (rest : List Item) :
    (item :: rest).filterMap step? = item.step?.toList ++ rest.filterMap step? := by
  cases item <;> rfl

end Item

/-- The calls of threads with given operations, numbered from the given number on. -/
def callsOfThreads (config : CompilerConfig) (next : Nat) (threads : List (List Step)) :
    List (List Call) :=
  (threads.zipIdx next).map fun p => threadCalls config p.2 p.1

theorem callsOfThreads_cons (config : CompilerConfig) (next : Nat) (steps : List Step)
    (threads : List (List Step)) :
    callsOfThreads config next (steps :: threads)
      = threadCalls config next steps :: callsOfThreads config (next + 1) threads := rfl

theorem callsOfThreads_append (config : CompilerConfig) (next : Nat) (xs ys : List (List Step)) :
    callsOfThreads config next (xs ++ ys)
      = callsOfThreads config next xs ++ callsOfThreads config (next + xs.length) ys := by
  unfold callsOfThreads
  rw [List.zipIdx_append, List.map_append]

/-- The clock of a thread goes on where an item leaves it. -/
theorem callsFrom_item (config : CompilerConfig) (thread : Nat) (clock : Micros) (next : Nat)
    (item : Item) (rest : List Step) :
    callsFrom config thread clock (item.step?.toList ++ rest)
      = callsFrom config thread clock item.step?.toList
        ++ callsFrom config thread (item.schedule config thread clock next).2.1 rest := by
  cases item with
  | step s =>
    rw [Item.schedule]
    rfl
  | thread body =>
    rw [Item.schedule]
    rfl

mutual

/-- An item weaves its own operation into the calls of the threads in it. -/
theorem schedule_weaves (config : CompilerConfig) (thread : Nat) (clock : Micros) (next : Nat) :
    ∀ item : Item,
      Weaves (item.schedule config thread clock next).1
        (callsFrom config thread clock item.step?.toList
          :: callsOfThreads config next item.threads) ∧
      (item.schedule config thread clock next).2.2 = next + item.threads.length
  | .step s => by
    rw [Item.schedule, Item.threads]
    exact ⟨.singleton _, rfl⟩
  | .thread body => by
    obtain ⟨weaves, number⟩ := scheduleAll_weaves config next config.offset (next + 1) body
    rw [callsFrom_offset] at weaves
    rw [Item.schedule, Item.scheduleThread, Item.threads, callsOfThreads_cons, List.length_cons]
    exact ⟨weaves.idle, by simp only [number]; omega⟩

/-- Items inside a thread weave their operations into the calls of the threads among them, which
take the next numbers in preorder. -/
theorem scheduleAll_weaves (config : CompilerConfig) (thread : Nat) (clock : Micros) (next : Nat) :
    ∀ items : List Item,
      Weaves (Item.scheduleAll config thread clock next items).1
        (callsFrom config thread clock (items.filterMap Item.step?)
          :: callsOfThreads config next (Item.threadsAll items)) ∧
      (Item.scheduleAll config thread clock next items).2 = next + (Item.threadsAll items).length
  | [] => by
    rw [Item.scheduleAll, Item.threadsAll]
    exact ⟨.nil, rfl⟩
  | item :: rest => by
    obtain ⟨first, number⟩ := schedule_weaves config thread clock next item
    obtain ⟨others, number'⟩ := scheduleAll_weaves config thread
      (item.schedule config thread clock next).2.1 (item.schedule config thread clock next).2.2 rest
    rw [Item.scheduleAll, Item.threadsAll, callsOfThreads_append, List.length_append,
      Item.filterMap_step_cons, callsFrom_item config thread clock next]
    -- the threads behind are numbered from where the threads of this item stopped
    rw [number] at others number'
    simp only [number]
    exact ⟨first.append others, number'.trans (Nat.add_assoc _ _ _)⟩

end

/-- A schedule weaves the calls of its threads, the first of which has number zero. -/
theorem schedule_weaves_all (config : CompilerConfig) (items : List Item) :
    Weaves (schedule config items) (callsOfThreads config 0
      (if items.all Item.isThread then Item.threadsAll items
        else items.filterMap Item.step? :: Item.threadsAll items)) := by
  unfold schedule
  split
  · rename_i all
    obtain ⟨weaves, -⟩ := scheduleAll_weaves config 0 config.offset 0 items
    rw [Item.filterMap_step_of_all all] at weaves
    exact weaves.of_idle
  · obtain ⟨weaves, -⟩ := scheduleAll_weaves config 0 config.offset 1 items
    rw [callsFrom_offset] at weaves
    rw [Item.scheduleThread]
    exact weaves

end Heapscope
