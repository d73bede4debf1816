import DynamicMemory.Sequential
import Mathlib.Algebra.Order.BigOperators.Group.Finset

/-!
# Runs of any number of threads

Every interleaving of the parts of the calls, from a module right after `DYNMEM_Init`: the
lists stay well formed and are the list model applied in the order the critical sections ran,
no block is lost or held twice, and the counter, with what the calls between their critical
section and their counter update still owe it, is the sum of the lists' totals
(`reach_lists_counter`).

The counter can still wrap below zero. A `DYNMEM_freeAll` whose critical section runs between
the critical section of a `DYNMEM_malloc` on the same list and that call's counter update
subtracts the new block before it was added (`freeAll_race_underflow`); a `DYNMEM_realloc` that
grows its block races in the same way. While no call is about to add to the counter, the
counter is the lists' total plus every decrease about to be made, and when that sum fits in 64
bits no decrease takes off more than the counter holds (`decrease_le_counter`).
-/

namespace DynamicMemory

variable {n k : Nat}

/-- Thread 0 runs `DYNMEM_malloc(16, &list, "a")` up to its counter update; thread 1 then runs
the critical section of `DYNMEM_freeAll(&list)`. -/
def raceSchedule : List (Sched 2 1) :=
  [.call 0 (.malloc 16 0 "a"), .exec 0 (.block 1), .exec 0 (.block 2), .exec 0 .null,
    .call 1 (.freeAll 0), .exec 1 .null]

def raceRun : Conc 2 1 × List (Op 1) :=
  ((Conc.idle (DYNMEM_Init Globals.load)).runSched sampleLayout raceSchedule).getD
    (Conc.idle Globals.load, [])

theorem raceRun_reach :
    Reach sampleLayout Answer.KeepsBlock (Conc.idle (DYNMEM_Init Globals.load)) raceRun.1
      raceRun.2 :=
  Conc.runSched_reach (show ∀ a ∈ Sched.answers raceSchedule, a.KeepsBlock by decide) rfl

/-- What the next step of a thread passes to `DYNMEM_IncreaseMemoryCounter`, if it calls it. -/
def Pc.increase (L : Layout) : Pc k → Option UInt64
  | .malloc bytes _ _ (.count _) => some (bytes + L.tableSize)
  | .realloc _ bytes _ (.count oldSize _) =>
    if bytes > oldSize then some (bytes - oldSize) else none
  | _ => none

/-- What the next step of a thread passes to `DYNMEM_DecreaseMemoryCounter`, if it calls it. -/
def Pc.decrease (L : Layout) (g : Globals k) : Pc k → Option UInt64
  | .realloc _ bytes _ (.count oldSize _) =>
    if bytes > oldSize then none else some (oldSize - bytes)
  | .free _ _ (.count found) => (g.records found).map fun e => e.size + L.tableSize
  | .freeAll _ (.count totalSizeRemoved) =>
    if totalSizeRemoved > 0 then some totalSizeRemoved else none
  | _ => none

section
variable {L : Layout} {g : Globals k} {pc : Pc k}

theorem Pc.exec_of_decrease {d : UInt64} (hd : pc.decrease L g = some d) {a : Answer}
    {g' : Globals k} {pc' : Pc k} (hx : pc.exec L g a = some (g', pc')) :
    g'.theTotalMemory = g.theTotalMemory - d := by
  rcases pc with _ | _ | _ | ⟨_, _, _, _⟩ | ⟨p, bytes, head, _ | ⟨oldSize, q⟩⟩ |
    ⟨p, head, _ | found | _ | _⟩ | ⟨head, _ | total⟩ <;> simp only [Pc.decrease] at hd <;>
    try cases hd
  · split at hd <;> cases hd
    simp only [Pc.exec, DYNMEM_realloc, if_neg ‹_›, Option.some.injEq, Prod.mk.injEq] at hx
    rw [← hx.1]; rfl
  · obtain ⟨e, he, rfl⟩ := Option.map_eq_some'.mp hd
    simp only [Pc.exec, DYNMEM_free, he, Option.bind_eq_bind, Option.some_bind,
      Option.some.injEq, Prod.mk.injEq] at hx
    rw [← hx.1]; rfl
  · split at hd <;> cases hd
    simp only [Pc.exec, DYNMEM_freeAll, if_pos ‹_›, Option.some.injEq, Prod.mk.injEq] at hx
    rw [← hx.1]; rfl

theorem Pc.pending_of_increase_eq_none (hi : pc.increase L = none) :
    pc.pending L g = -(pc.decrease L g).getD 0 := by
  rcases pc with _ | _ | _ | ⟨_, _, _, _ | _ | _ | _ | _⟩ | ⟨_, bytes, _, _ | ⟨oldSize, _⟩⟩ |
    ⟨_, _, _ | _ | _ | _⟩ | ⟨_, _ | total⟩ <;> simp only [Pc.increase, reduceCtorEq] at hi <;>
    simp only [Pc.pending, Pc.decrease, Option.getD_none, neg_zero]
  · have hle : ¬ bytes > oldSize := fun hgt => by simp [hgt] at hi
    rw [if_neg hle, Option.getD_some, neg_sub]
  · by_cases hpos : total > 0
    · simp [hpos]
    · simp [hpos, UInt64.eq_zero_of_not_pos hpos]

end

/-- The race ends with thread 1 about to take 64 bytes off a counter that holds 0; the counter
then wraps to `2^64 - 64`. -/
theorem freeAll_race_underflow :
    Reach sampleLayout Answer.KeepsBlock (Conc.idle (DYNMEM_Init Globals.load)) raceRun.1
        raceRun.2 ∧
      (raceRun.1.th 1).decrease sampleLayout raceRun.1.g = some 64 ∧
      raceRun.1.g.theTotalMemory = 0 ∧
      ((raceRun.1.th 1).exec sampleLayout raceRun.1.g .null).map (·.1.theTotalMemory) =
        some 18446744073709551552 :=
  ⟨raceRun_reach, rfl, rfl, rfl⟩

/- A `DYNMEM_realloc` that grows block `1` from 16 to 100 bytes races in the same way: the
`DYNMEM_freeAll` run between its two parts is about to take 148 bytes off a counter of 64. -/
example : ((Conc.idle (DYNMEM_Init Globals.load) : Conc 2 1).runSched sampleLayout
    [.call 0 (.malloc 16 0 "a"), .exec 0 (.block 1), .exec 0 (.block 2), .exec 0 .null,
      .exec 0 .null, .call 0 (.realloc 1 100 0), .exec 0 (.block 3), .call 1 (.freeAll 0),
      .exec 1 .null]).map
      (fun r => ((r.1.th 1).decrease sampleLayout r.1.g, r.1.g.theTotalMemory)) =
    some (some 148, 64) := by
  decide

-- ---------------------------------------------------------------------------
-- When no decrease underflows
-- ---------------------------------------------------------------------------

theorem UInt64.toNat_sum_of_lt {ι : Type*} (s : Finset ι) (f : ι → UInt64)
    (h : ∑ i ∈ s, (f i).toNat < 2 ^ 64) : (∑ i ∈ s, f i).toNat = ∑ i ∈ s, (f i).toNat := by
  classical
  induction s using Finset.induction_on with
  | empty => rfl
  | @insert i s hi ih =>
    rw [Finset.sum_insert hi] at h ⊢
    rw [Finset.sum_insert hi, UInt64.toNat_add, ih (by omega)]
    exact Nat.mod_eq_of_lt h

/-- In a run from the module right after `DYNMEM_Init` in which no thread is about to add to the
counter, the counter is the lists' total plus every decrease the threads are about to make. When
that sum fits in 64 bits, the counter holds it without wrapping, and each of those decreases
takes off no more than the counter holds. -/
theorem decrease_le_counter (L : Layout) {s : Conc n k} {ops : List (Op k)}
    (hr : Reach L Answer.KeepsBlock (Conc.idle (DYNMEM_Init Globals.load)) s ops)
    (hinc : ∀ u, (s.th u).increase L = none) :
    s.g.theTotalMemory =
        (Model.empty.applyAll ops).total L + ∑ u, ((s.th u).decrease L s.g).getD 0 ∧
      (((Model.empty.applyAll ops).total L).toNat +
          ∑ u, (((s.th u).decrease L s.g).getD 0).toNat < 2 ^ 64 →
        s.g.theTotalMemory.toNat = ((Model.empty.applyAll ops).total L).toNat +
          ∑ u, (((s.th u).decrease L s.g).getD 0).toNat ∧
        ∀ t d, (s.th t).decrease L s.g = some d → d ≤ s.g.theTotalMemory ∧
          ∀ a g' pc', (s.th t).exec L s.g a = some (g', pc') →
            g'.theTotalMemory.toNat = s.g.theTotalMemory.toNat - d.toNat) := by
  obtain ⟨-, -, hc⟩ := ListInv.initLoad.reach_count (CountInv.initLoad L) hr
  -- every thread owes the counter minus what it is about to take off
  have hT : s.g.theTotalMemory =
      (Model.empty.applyAll ops).total L + ∑ u, ((s.th u).decrease L s.g).getD 0 := by
    rw [← hc.counter, Finset.sum_congr rfl fun u _ => Pc.pending_of_increase_eq_none (hinc u),
      Finset.sum_neg_distrib]
    abel
  refine ⟨hT, fun hfit => ?_⟩
  have hN : s.g.theTotalMemory.toNat = ((Model.empty.applyAll ops).total L).toNat +
      ∑ u, (((s.th u).decrease L s.g).getD 0).toNat := by
    rw [hT, UInt64.toNat_add, UInt64.toNat_sum_of_lt _ _ (by omega)]
    exact Nat.mod_eq_of_lt hfit
  refine ⟨hN, fun t d hd => ?_⟩
  -- `d` is one of the summands
  have hd' := Finset.single_le_sum (fun u _ => Nat.zero_le (((s.th u).decrease L s.g).getD 0).toNat)
    (Finset.mem_univ t)
  rw [hd, Option.getD_some] at hd'
  have hle : d ≤ s.g.theTotalMemory := UInt64.le_iff_toNat_le.mpr (by omega)
  exact ⟨hle, fun a g' pc' hx => by rw [Pc.exec_of_decrease hd hx, UInt64.toNat_sub_of_le _ _ hle]⟩

/-- Two threads, each on its own list, each run `DYNMEM_malloc` of 16 and then of 8 bytes, and
then the critical section of a `DYNMEM_free` of their first block. -/
def twoListsSchedule : List (Sched 2 2) :=
  [.call 0 (.malloc 16 0 "a"), .call 1 (.malloc 16 1 "b"), .exec 0 (.block 1), .exec 1 (.block 3),
    .exec 0 (.block 2), .exec 1 (.block 4), .exec 0 .null, .exec 1 .null, .exec 0 .null,
    .exec 1 .null,
    .call 0 (.malloc 8 0 "c"), .exec 0 (.block 5), .exec 0 (.block 6), .exec 0 .null, .exec 0 .null,
    .call 1 (.malloc 8 1 "d"), .exec 1 (.block 7), .exec 1 (.block 8), .exec 1 .null, .exec 1 .null,
    .call 0 (.free 1 0), .exec 0 .null, .call 1 (.free 3 1), .exec 1 .null]

def twoListsRun : Conc 2 2 × List (Op 2) :=
  ((Conc.idle (DYNMEM_Init Globals.load)).runSched sampleLayout twoListsSchedule).getD
    (Conc.idle Globals.load, [])

theorem twoListsRun_reach :
    Reach sampleLayout Answer.KeepsBlock (Conc.idle (DYNMEM_Init Globals.load)) twoListsRun.1
      twoListsRun.2 :=
  Conc.runSched_reach (show ∀ a ∈ Sched.answers twoListsSchedule, a.KeepsBlock by decide) rfl

/- Each list keeps its 8-byte block, and each thread is about to take 64 bytes off a counter
of 240. -/
example : (DYNMEM_dump sampleLayout twoListsRun.1.g (twoListsRun.1.g.heads 1)).map
      (fun d => d.blocks.map MemoryTable.entry) = some [(7, 8)] ∧
    (twoListsRun.1.th 0).decrease sampleLayout twoListsRun.1.g = some 64 ∧
    (twoListsRun.1.th 1).decrease sampleLayout twoListsRun.1.g = some 64 ∧
    twoListsRun.1.g.theTotalMemory = 240 := by
  decide

theorem decrease_le_counter_twoLists :
    Reach sampleLayout Answer.KeepsBlock (Conc.idle (DYNMEM_Init Globals.load)) twoListsRun.1
        twoListsRun.2 ∧
      (∀ u, (twoListsRun.1.th u).increase sampleLayout = none) ∧
      ((Model.empty.applyAll twoListsRun.2).total sampleLayout).toNat +
          ∑ u, (((twoListsRun.1.th u).decrease sampleLayout twoListsRun.1.g).getD 0).toNat <
        2 ^ 64 ∧
      twoListsRun.1.g.theTotalMemory = (Model.empty.applyAll twoListsRun.2).total sampleLayout +
          ∑ u, ((twoListsRun.1.th u).decrease sampleLayout twoListsRun.1.g).getD 0 ∧
      (((Model.empty.applyAll twoListsRun.2).total sampleLayout).toNat +
          ∑ u, (((twoListsRun.1.th u).decrease sampleLayout twoListsRun.1.g).getD 0).toNat <
            2 ^ 64 →
        twoListsRun.1.g.theTotalMemory.toNat =
          ((Model.empty.applyAll twoListsRun.2).total sampleLayout).toNat +
            ∑ u, (((twoListsRun.1.th u).decrease sampleLayout twoListsRun.1.g).getD 0).toNat ∧
        ∀ t d, (twoListsRun.1.th t).decrease sampleLayout twoListsRun.1.g = some d →
          d ≤ twoListsRun.1.g.theTotalMemory ∧
          ∀ a g' pc', (twoListsRun.1.th t).exec sampleLayout twoListsRun.1.g a = some (g', pc') →
            g'.theTotalMemory.toNat = twoListsRun.1.g.theTotalMemory.toNat - d.toNat) :=
  ⟨twoListsRun_reach, by decide, by decide,
    decrease_le_counter sampleLayout twoListsRun_reach (by decide)⟩

end DynamicMemory
