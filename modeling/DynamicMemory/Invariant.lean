import DynamicMemory.Segment
import DynamicMemory.System
import Mathlib.Data.Multiset.Nodup
import Mathlib.Data.Multiset.OrderedMonoid

/-!
# The list invariant

Every block the allocator holds live for the module is accounted for exactly once: it is a
record linked in one list, the block such a record tracks, or a block a thread holds in the
middle of a call (allocated and not yet linked, or unlinked and not yet released). Each list
is a well-formed doubly linked list whose entries are the list model's.

`ListInv.of_local` and `ListInv.of_list` reduce the invariant after a step of one thread to
facts about that thread and, for a critical section, the one list it works on: every other
list and thread keeps its records, because the step writes no record accounted to them.
-/

namespace DynamicMemory

variable {n k : Nat}

/-- Blocks a thread holds in the middle of a call. -/
def Pc.blocks (g : Globals k) : Pc k → List Ptr
  | .malloc _ _ _ (.item memory) => [memory]
  | .malloc _ _ _ (.rollback memory) => [memory]
  | .malloc _ _ _ (.link memory newItem) => [memory, newItem]
  | .free _ _ (.count found) => [g.addressOf found, found]
  | .free _ _ (.address found) => [g.addressOf found, found]
  | .free _ _ (.record found) => [found]
  | _ => []

/-- What a thread's next steps rely on in the records it holds. -/
def Pc.Holds (g : Globals k) : Pc k → Prop
  | .malloc bytes _ _ (.link memory newItem) =>
    (g.records newItem).map MemoryTable.entry = some (memory, bytes)
  | .free _ _ (.count found) => (g.records found).isSome
  | .free _ _ (.address found) => (g.records found).isSome
  | _ => True

theorem Globals.weight_eq_entriesTotal (L : Layout) (g : Globals k) (ns : List Ptr) :
    g.weight L ns = entriesTotal L (g.entries ns) := by
  simp [Globals.weight, entriesTotal, Globals.entries, Function.comp_def, MemoryTable.entry]

/-- What a call still has to add to the counter, from its critical section to its counter
update. -/
def Pc.pending (L : Layout) (g : Globals k) : Pc k → UInt64
  | .malloc bytes _ _ (.count _) => bytes + L.tableSize
  | .realloc _ bytes _ (.count oldSize _) => bytes - oldSize
  | .free _ _ (.count found) => -(((g.records found).map fun e => e.size + L.tableSize).getD 0)
  | .freeAll _ (.count totalSizeRemoved) => -totalSizeRemoved
  | _ => 0

theorem Pc.blocks_of_returned {pc : Pc k} (hr : pc.Returned) (g : Globals k) : pc.blocks g = [] := by
  cases pc <;> first | rfl | exact absurd hr id

theorem Call.entry_blocks (c : Call k) (g : Globals k) : c.entry.blocks g = [] := by
  cases c <;> simp only [Call.entry] <;> (try split) <;> rfl

theorem Pc.pending_of_returned {pc : Pc k} (hr : pc.Returned) (L : Layout) (g : Globals k) :
    pc.pending L g = 0 := by
  cases pc <;> first | rfl | exact absurd hr id

theorem Call.entry_pending (c : Call k) (L : Layout) (g : Globals k) : c.entry.pending L g = 0 := by
  cases c <;> simp only [Call.entry] <;> (try split) <;> rfl

theorem Call.entry_holds (c : Call k) (g : Globals k) : c.entry.Holds g := by
  cases c <;> simp only [Call.entry] <;> (try split) <;> trivial

def Conc.accounted (s : Conc n k) (nodes : Fin k → List Ptr) : Multiset Ptr :=
  ∑ l, (s.g.blocksOf (nodes l) : Multiset Ptr) + ∑ t, ((s.th t).blocks s.g : Multiset Ptr)

/-- The counter invariant: the module is initialized, and the counter, with what the calls
between their critical section and their counter update still owe it, is what the lists hold. -/
structure CountInv (L : Layout) (s : Conc n k) (m : Model k) : Prop where
  initialized : s.g.initialized = true
  counter : s.g.theTotalMemory + ∑ t, (s.th t).pending L s.g = m.total L

/-- The lists are `nodes`, their entries are the model `m`, and the live blocks are exactly
the blocks accounted for, each once. -/
structure ListInv (s : Conc n k) (nodes : Fin k → List Ptr) (m : Model k) : Prop where
  seg : ∀ l, Seg s.g.records (s.g.heads l) (nodes l)
  model : ∀ l, s.g.entries (nodes l) = m l
  accounts : s.g.live.val = s.accounted nodes
  null : NULL ∉ s.g.live
  holds : ∀ t, (s.th t).Holds s.g

/-- A step of thread `t` to the globals `g'` leaves every record the other threads hold. -/
def Conc.KeepsOthers (s : Conc n k) (t : Fin n) (g' : Globals k) : Prop :=
  ∀ u ≠ t, ∀ p ∈ (s.th u).blocks s.g, g'.records p = s.g.records p

/-- A step from `g` and `pc` to `g'` and `pc'`, taking the lists from `m` to `m'`, moves the
counter and what the call still owes it by what the lists gained; an initialized module stays
initialized. -/
def Balanced (L : Layout) (g : Globals k) (pc : Pc k) (g' : Globals k) (pc' : Pc k)
    (m m' : Model k) : Prop :=
  g.initialized = true → g'.initialized = true ∧
    g'.theTotalMemory + pc'.pending L g' + m.total L = g.theTotalMemory + pc.pending L g + m'.total L

-- ---------------------------------------------------------------------------
-- What a thread holds depends on its own records only
-- ---------------------------------------------------------------------------

section frame
variable {g g' : Globals k} {pc : Pc k} (hr : ∀ p ∈ pc.blocks g, g'.records p = g.records p)
include hr

theorem Pc.blocks_frame : pc.blocks g' = pc.blocks g := by
  rcases pc with _ | _ | _ | ⟨_, _, _, _ | _ | _ | _ | _⟩ | _ | ⟨_, _, _ | _ | _ | _⟩ | _ <;>
    simp_all [Pc.blocks, Globals.addressOf]

theorem Pc.holds_frame : pc.Holds g' ↔ pc.Holds g := by
  rcases pc with _ | _ | _ | ⟨_, _, _, _ | _ | _ | _ | _⟩ | _ | ⟨_, _, _ | _ | _ | _⟩ | _ <;>
    simp_all [Pc.blocks, Pc.Holds]

theorem Pc.pending_frame (L : Layout) : pc.pending L g' = pc.pending L g := by
  rcases pc with _ | _ | _ | ⟨_, _, _, _ | _ | _ | _ | _⟩ | ⟨_, _, _, _ | _⟩ |
    ⟨_, _, _ | _ | _ | _⟩ | ⟨_, _ | _⟩ <;>
    simp_all [Pc.blocks, Pc.pending]

end frame

theorem Conc.accounted_list (s : Conc n k) (nodes : Fin k → List Ptr) (l : Fin k) :
    s.accounted nodes = s.g.blocksOf (nodes l) +
      (∑ j ∈ Finset.univ.erase l, (s.g.blocksOf (nodes j) : Multiset Ptr) +
        ∑ t, ((s.th t).blocks s.g : Multiset Ptr)) := by
  rw [Conc.accounted, ← Finset.add_sum_erase _ _ (Finset.mem_univ l), add_assoc]

theorem Conc.accounted_thread (s : Conc n k) (nodes : Fin k → List Ptr) (t : Fin n) :
    s.accounted nodes = (s.th t).blocks s.g + (∑ l, (s.g.blocksOf (nodes l) : Multiset Ptr) +
      ∑ u ∈ Finset.univ.erase t, ((s.th u).blocks s.g : Multiset Ptr)) := by
  rw [Conc.accounted, ← Finset.add_sum_erase _ _ (Finset.mem_univ t)]
  abel

theorem Conc.threads_update (s : Conc n k) {t : Fin n} {g' : Globals k} {pc' : Pc k}
    (hru : s.KeepsOthers t g') :
    ∑ u, ((Function.update s.th t pc' u).blocks g' : Multiset Ptr) + (s.th t).blocks s.g =
      ∑ u, ((s.th u).blocks s.g : Multiset Ptr) + pc'.blocks g' := by
  rw [← sum_update_add (fun u => ((s.th u).blocks s.g : Multiset Ptr)) t]
  congr 1
  refine Finset.sum_congr rfl fun u _ => ?_
  by_cases hu : u = t
  · subst hu; simp
  · simp [Function.update_noteq hu, Pc.blocks_frame (hru u hu)]

theorem Conc.lists_update (s : Conc n k) {nodes : Fin k → List Ptr} {l : Fin k} {g' : Globals k}
    {ns' : List Ptr} (hrl : ∀ j ≠ l, ∀ p ∈ nodes j, g'.records p = s.g.records p) :
    ∑ j, (g'.blocksOf (Function.update nodes l ns' j) : Multiset Ptr) + s.g.blocksOf (nodes l) =
      ∑ j, (s.g.blocksOf (nodes j) : Multiset Ptr) + g'.blocksOf ns' := by
  rw [← sum_update_add (fun j => (s.g.blocksOf (nodes j) : Multiset Ptr)) l]
  congr 1
  refine Finset.sum_congr rfl fun j _ => ?_
  by_cases hj : j = l
  · subst hj; simp
  · simp [Function.update_noteq hj, Globals.blocksOf_congr (hrl j hj)]

-- ---------------------------------------------------------------------------
-- Consequences of the accounting
-- ---------------------------------------------------------------------------

section accounting
variable {s : Conc n k} {nodes : Fin k → List Ptr} {m : Model k} (h : ListInv s nodes m)
include h

theorem ListInv.nodup_accounted : (s.accounted nodes).Nodup := h.accounts ▸ s.g.live.nodup

theorem ListInv.mem_live {p : Ptr} (hp : p ∈ s.accounted nodes) : p ∈ s.g.live := by
  rw [← Finset.mem_val, h.accounts]; exact hp

theorem ListInv.live_of_list {l : Fin k} {p : Ptr} (hp : p ∈ s.g.blocksOf (nodes l)) :
    p ∈ s.g.live :=
  h.mem_live (by rw [s.accounted_list nodes l]; exact Multiset.mem_add.mpr (.inl hp))

theorem ListInv.live_of_thread {t : Fin n} {p : Ptr} (hp : p ∈ (s.th t).blocks s.g) :
    p ∈ s.g.live :=
  h.mem_live (by rw [s.accounted_thread nodes t]; exact Multiset.mem_add.mpr (.inl hp))

theorem ListInv.nodup_list (l : Fin k) : (s.g.blocksOf (nodes l)).Nodup := by
  have := h.nodup_accounted
  rw [s.accounted_list nodes l, Multiset.nodup_add] at this
  exact this.1

theorem ListInv.nodup_thread (t : Fin n) : ((s.th t).blocks s.g).Nodup := by
  have := h.nodup_accounted
  rw [s.accounted_thread nodes t, Multiset.nodup_add] at this
  exact this.1

theorem ListInv.not_thread_of_list {l : Fin k} {t : Fin n} {p : Ptr}
    (hp : p ∈ s.g.blocksOf (nodes l)) : p ∉ (s.th t).blocks s.g := by
  have := h.nodup_accounted
  rw [s.accounted_thread nodes t, Multiset.nodup_add] at this
  refine fun ht => Multiset.disjoint_left.mp this.2.2 ht (Multiset.mem_add.mpr (.inl ?_))
  exact Multiset.mem_sum.mpr ⟨l, Finset.mem_univ _, hp⟩

theorem ListInv.not_list_of_thread {l : Fin k} {t : Fin n} {p : Ptr}
    (hp : p ∈ (s.th t).blocks s.g) : p ∉ s.g.blocksOf (nodes l) :=
  fun hl => h.not_thread_of_list hl hp

theorem ListInv.not_list_of_list {l j : Fin k} (hj : j ≠ l) {p : Ptr}
    (hp : p ∈ s.g.blocksOf (nodes j)) : p ∉ s.g.blocksOf (nodes l) := by
  have := h.nodup_accounted
  rw [s.accounted_list nodes l, Multiset.nodup_add] at this
  refine fun hl => Multiset.disjoint_left.mp this.2.2 hl (Multiset.mem_add.mpr (.inl ?_))
  exact Multiset.mem_sum.mpr ⟨j, Finset.mem_erase.mpr ⟨hj, Finset.mem_univ _⟩, hp⟩

theorem ListInv.not_thread_of_thread {t u : Fin n} (hu : u ≠ t) {p : Ptr}
    (hp : p ∈ (s.th u).blocks s.g) : p ∉ (s.th t).blocks s.g := by
  have := h.nodup_accounted
  rw [s.accounted_thread nodes t, Multiset.nodup_add] at this
  refine fun ht => Multiset.disjoint_left.mp this.2.2 ht (Multiset.mem_add.mpr (.inr ?_))
  exact Multiset.mem_sum.mpr ⟨u, Finset.mem_erase.mpr ⟨hu, Finset.mem_univ _⟩, hp⟩

-- ---------------------------------------------------------------------------
-- Framing a step of one thread
-- ---------------------------------------------------------------------------

theorem ListInv.holds_update {t : Fin n} {g' : Globals k} {pc' : Pc k}
    (hru : s.KeepsOthers t g')
    (hholds : pc'.Holds g') (u : Fin n) : (Function.update s.th t pc' u).Holds g' := by
  by_cases hu : u = t
  · subst hu; simpa using hholds
  · rw [Function.update_noteq hu]; exact (Pc.holds_frame (hru u hu)).mpr (h.holds u)

theorem ListInv.of_local {t : Fin n} {g' : Globals k} {pc' : Pc k}
    (hheads : g'.heads = s.g.heads)
    (hframe : ∀ p ∈ s.g.live, p ∉ (s.th t).blocks s.g → g'.records p = s.g.records p)
    (hacc : g'.live.val + (s.th t).blocks s.g = s.g.live.val + pc'.blocks g')
    (hnull : NULL ∉ g'.live) (hholds : pc'.Holds g') :
    ListInv ⟨g', Function.update s.th t pc'⟩ nodes m ∧ s.KeepsOthers t g' := by
  have hrl : ∀ l, ∀ p ∈ nodes l, g'.records p = s.g.records p := fun l p hp =>
    hframe p (h.live_of_list (mem_blocksOf_self hp)) (h.not_thread_of_list (mem_blocksOf_self hp))
  have hru : s.KeepsOthers t g' :=
    fun u hu p hp => hframe p (h.live_of_thread hp) (h.not_thread_of_thread hu hp)
  refine ⟨⟨fun l => ?_, fun l => ?_, ?_, hnull, h.holds_update hru hholds⟩, hru⟩
  · obtain ⟨q, hq⟩ := h.seg l
    exact ⟨q, hheads ▸ hq.frame_eq (hrl l)⟩
  · rw [Globals.entries_congr (hrl l)]; exact h.model l
  · apply add_right_cancel (b := ((s.th t).blocks s.g : Multiset Ptr))
    rw [hacc, h.accounts]
    simp only [Conc.accounted, add_assoc, s.threads_update hru, Globals.blocksOf_congr (hrl _)]

theorem ListInv.of_list {t : Fin n} {l : Fin k} {g' : Globals k} {pc' : Pc k} {ns' : List Ptr}
    {m' : Model k} (hheads : ∀ j ≠ l, g'.heads j = s.g.heads j)
    (hframe : ∀ p ∈ s.g.live, p ∉ s.g.blocksOf (nodes l) → p ∉ (s.th t).blocks s.g →
      g'.records p = s.g.records p)
    (hseg : Seg g'.records (g'.heads l) ns') (hmodel : g'.entries ns' = m' l)
    (hm : ∀ j ≠ l, m' j = m j)
    (hacc : g'.live.val + s.g.blocksOf (nodes l) + (s.th t).blocks s.g =
      s.g.live.val + g'.blocksOf ns' + pc'.blocks g')
    (hnull : NULL ∉ g'.live) (hholds : pc'.Holds g') :
    ListInv ⟨g', Function.update s.th t pc'⟩ (Function.update nodes l ns') m' ∧
      s.KeepsOthers t g' := by
  have hrl : ∀ j ≠ l, ∀ p ∈ nodes j, g'.records p = s.g.records p := fun j hj p hp =>
    have hb := mem_blocksOf_self (g := s.g) hp
    hframe p (h.live_of_list hb) (h.not_list_of_list hj hb) (h.not_thread_of_list hb)
  have hru : s.KeepsOthers t g' := fun u hu p hp =>
    hframe p (h.live_of_thread hp) (h.not_list_of_thread hp) (h.not_thread_of_thread hu hp)
  refine ⟨⟨fun j => ?_, fun j => ?_, ?_, hnull, h.holds_update hru hholds⟩, hru⟩
  · by_cases hj : j = l
    · subst hj; simpa using hseg
    · obtain ⟨q, hq⟩ := h.seg j
      exact ⟨q, by rw [Function.update_noteq hj, hheads j hj]; exact hq.frame_eq (hrl j hj)⟩
  · by_cases hj : j = l
    · subst hj; simpa using hmodel
    · rw [Function.update_noteq hj, Globals.entries_congr (hrl j hj), hm j hj]; exact h.model j
  · apply add_right_cancel (b := (s.g.blocksOf (nodes l) + (s.th t).blocks s.g : Multiset Ptr))
    rw [← add_assoc, hacc, h.accounts]
    simp only [Conc.accounted]
    rw [add_add_add_comm, s.lists_update hrl, s.threads_update hru]
    abel

end accounting

-- ---------------------------------------------------------------------------
-- The counter
-- ---------------------------------------------------------------------------

theorem CountInv.of_balanced {L : Layout} {s : Conc n k} {m m' : Model k} {t : Fin n}
    {g' : Globals k} {pc' : Pc k} (hc : CountInv L s m) (hb : Balanced L s.g (s.th t) g' pc' m m')
    (hk : s.KeepsOthers t g') : CountInv L ⟨g', Function.update s.th t pc'⟩ m' := by
  obtain ⟨hi, hbal⟩ := hb hc.initialized
  refine ⟨hi, ?_⟩
  set F : Fin n → UInt64 := fun u => (s.th u).pending L s.g
  have hsum : ∑ u, (Function.update s.th t pc' u).pending L g' =
      ∑ u, Function.update F t (pc'.pending L g') u := by
    refine Finset.sum_congr rfl fun u _ => ?_
    by_cases hu : u = t
    · subst hu; simp
    · simp [F, Function.update_noteq hu, Pc.pending_frame (hk u hu) L]
  show g'.theTotalMemory + ∑ u, (Function.update s.th t pc' u).pending L g' = m'.total L
  apply add_right_cancel (b := F t + m.total L)
  calc _ = (g'.theTotalMemory + pc'.pending L g' + m.total L) +
        (∑ u, (Function.update s.th t pc' u).pending L g' + F t) - pc'.pending L g' := by abel
    _ = (s.g.theTotalMemory + F t + m'.total L) + (∑ u, F u + pc'.pending L g') -
        pc'.pending L g' := by rw [hbal, hsum, sum_update_add]
    _ = (s.g.theTotalMemory + ∑ u, F u) + F t + m'.total L := by abel
    _ = _ := by rw [hc.counter]; abel

end DynamicMemory
