import DynamicMemory.Steps

/-!
# The lists, as a reader of the memory sees them

What the invariant says about the lists in terms of the memory alone: each list is a finite
doubly linked list from its head, whose `nextElement` and `previousElement` fields mirror each
other, and no record sits in two lists; and `DYNMEM_dump`, walking a list from its head,
reads back the list model's entries, and adds up `size + sizeof(record)` over them.
-/

namespace DynamicMemory

variable {n k : Nat}

/-- The lists of `g` are `nodes`: each a doubly linked list from its head, `NULL` before the
first record and after the last, with no record twice and none in two lists. -/
structure WellFormed (g : Globals k) (nodes : Fin k → List Ptr) : Prop where
  seg : ∀ l, Seg g.records (g.heads l) (nodes l)
  nodup : ∀ l, (nodes l).Nodup
  disjoint : ∀ l j, l ≠ j → (nodes l).Disjoint (nodes j)
  /-- The head's `previousElement` is `NULL`. -/
  headPrev : ∀ l, g.heads l ≠ NULL →
    (g.records (g.heads l)).map MemoryTable.previousElement = some NULL
  /-- `a.nextElement = b` exactly when `b.previousElement = a`. -/
  links : ∀ l, ∀ a ∈ nodes l, ∀ b ∈ nodes l,
    (g.records a).map MemoryTable.nextElement = some b ↔
      (g.records b).map MemoryTable.previousElement = some a

section
variable {s : Conc n k} {nodes : Fin k → List Ptr} {m : Model k} (h : ListInv s nodes m)
include h

theorem ListInv.nodup (l : Fin k) : (nodes l).Nodup :=
  Globals.nodup_of_blocksOf (h.nodup_list l)

theorem ListInv.disjoint {l j : Fin k} (hlj : l ≠ j) : (nodes l).Disjoint (nodes j) :=
  fun _ ha hb => h.not_list_of_list hlj (mem_blocksOf_self ha) (mem_blocksOf_self hb)

theorem ListInv.wellFormed : WellFormed s.g nodes where
  seg := h.seg
  nodup := h.nodup
  disjoint _ _ := h.disjoint
  headPrev l hl := by
    obtain ⟨q, hq⟩ := h.seg l
    cases hn : nodes l with
    | nil => rw [hn] at hq; exact absurd hq.1 hl
    | cons x ns =>
      rw [hn] at hq
      obtain ⟨rfl, -, e, he, hp, -⟩ := hq
      simp [he, hp]
  links l a ha b hb := by
    obtain ⟨q, hq⟩ := h.seg l
    have hnull : NULL ∉ nodes l := fun hn => hq.ne_null hn rfl
    exact hq.next_iff_prev (h.nodup l) hnull hnull ha hb

theorem ListInv.dump (L : Layout) (l : Fin k) :
    DYNMEM_dump L s.g (s.g.heads l) =
      some ⟨s.g.recordsOn (nodes l), s.g.weight L (nodes l), s.g.theTotalMemory⟩ := by
  obtain ⟨q, hq⟩ := h.seg l
  simp [DYNMEM_dump, dumpLoop_dseg L hq (h.length_lt l) 0, DYNMEM_GetTotalMemory]

theorem ListInv.dump_entries (L : Layout) (l : Fin k) :
    (DYNMEM_dump L s.g (s.g.heads l)).map (fun d => d.blocks.map MemoryTable.entry) =
      some (m l) := by
  rw [h.dump L l, Option.map_some', ← h.model l]
  rfl

theorem ListInv.dump_total (L : Layout) (l : Fin k) :
    (DYNMEM_dump L s.g (s.g.heads l)).map Dump.total = some (entriesTotal L (m l)) := by
  rw [h.dump L l, Option.map_some', ← h.model l, Globals.weight_eq_entriesTotal]

end

end DynamicMemory
