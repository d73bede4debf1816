import DynamicMemory.Invariant

/-!
# Each step keeps the list invariant

One lemma per part of each call: the allocator calls outside the locks, the critical
sections, and the counter updates. Allocator answers are those that keep the block on `NULL`.
`ListInv.exec` puts them together: every step keeps the invariant, a critical section changes
the lists as its label in the list model says, and the counter with what the thread still owes
it moves by what the lists' total moves (`Balanced`). From these, by induction over a run,
`ListInv.reach_count`: every interleaving keeps both invariants from the module right after
`DYNMEM_Init`.
-/

namespace DynamicMemory

variable {n k : Nat}

-- ---------------------------------------------------------------------------
-- The allocator
-- ---------------------------------------------------------------------------

theorem sysCalloc_cases (g : Globals k) (r : Option MemoryTable) (a : Answer) :
    sysCalloc g r a = (g, NULL) ∨ ∃ q, g.Fresh q ∧ sysCalloc g r a = (g.alloc q r, q) := by
  cases a with
  | block q =>
    by_cases hq : g.Fresh q
    · exact .inr ⟨q, hq, by simp [sysCalloc, hq]⟩
    · exact .inl (by simp [sysCalloc, hq])
  | null | nullFreeing => exact .inl rfl

theorem sysRealloc_cases {g : Globals k} {p : Ptr} (hp : p ∈ g.live) (bytes : UInt64)
    {a : Answer} (ha : a.KeepsBlock) :
    sysRealloc g p bytes a = some (g, NULL) ∨ sysRealloc g p bytes a = some (g, p) ∨
      ∃ q, q ≠ p ∧ g.Fresh q ∧ sysRealloc g p bytes a = some (g.move p q, q) := by
  cases a with
  | block q =>
    by_cases hqp : q = p
    · exact .inr (.inl (by simp [sysRealloc, hp, hqp]))
    · by_cases hq : g.Fresh q
      · exact .inr (.inr ⟨q, hqp, hq, by simp [sysRealloc, hp, hqp, hq]⟩)
      · exact .inl (by simp [sysRealloc, hp, hqp, hq])
  | null => exact .inl (by simp [sysRealloc, hp])
  | nullFreeing => exact absurd rfl ha

theorem Globals.alloc_live_val {g : Globals k} {q : Ptr} (hq : g.Fresh q) (r : Option MemoryTable) :
    (g.alloc q r).live.val = g.live.val + {q} := by
  rw [Globals.alloc, Finset.insert_val_of_not_mem hq.2, add_comm]; rfl

theorem Globals.release_live_val {g : Globals k} {p : Ptr} (hp : p ∈ g.live) :
    (g.release p).live.val + {p} = g.live.val := by
  rw [Globals.release_live, Finset.erase_val, add_comm]
  exact Multiset.cons_erase hp

theorem Globals.move_live_val {g : Globals k} {p q : Ptr} (hp : p ∈ g.live) (hq : g.Fresh q) :
    (g.move p q).live.val + {p} = g.live.val + {q} := by
  have hq' : q ∉ g.live.erase p := fun h => hq.2 (Finset.mem_of_mem_erase h)
  conv_rhs => rw [← Finset.insert_erase hp]
  rw [Globals.move, Finset.insert_val_of_not_mem hq', Finset.insert_val_of_not_mem (by simp)]
  simp only [Multiset.cons_add, ← Multiset.singleton_add]
  abel

theorem Globals.move_records {g : Globals k} {p q x : Ptr} (hq : g.Fresh q) (hx : x ∈ g.live)
    (hxp : x ≠ p) : (g.move p q).records x = g.records x := by
  simp only [Globals.move, Function.update_noteq (ne_of_mem_of_not_mem hx hq.2),
    Function.update_noteq hxp]

@[simp] theorem Globals.releaseAll_heads (g : Globals k) (ps : List Ptr) :
    (g.releaseAll ps).heads = g.heads := by
  induction ps generalizing g with
  | nil => rfl
  | cons p ps ih => exact ih (g.release p)

@[simp] theorem Globals.releaseAll_theTotalMemory (g : Globals k) (ps : List Ptr) :
    (g.releaseAll ps).theTotalMemory = g.theTotalMemory := by
  induction ps generalizing g with
  | nil => rfl
  | cons p ps ih => exact ih (g.release p)

@[simp] theorem Globals.releaseAll_initialized (g : Globals k) (ps : List Ptr) :
    (g.releaseAll ps).initialized = g.initialized := by
  induction ps generalizing g with
  | nil => rfl
  | cons p ps ih => exact ih (g.release p)

theorem Globals.releaseAll_records {g : Globals k} {ps : List Ptr} {x : Ptr} (hx : x ∉ ps) :
    (g.releaseAll ps).records x = g.records x := by
  induction ps generalizing g with
  | nil => rfl
  | cons p ps ih =>
    rw [List.mem_cons, not_or] at hx
    exact (ih hx.2).trans (Function.update_noteq hx.1 _ _)

theorem Globals.releaseAll_live_subset (g : Globals k) (ps : List Ptr) :
    (g.releaseAll ps).live ⊆ g.live := by
  induction ps generalizing g with
  | nil => exact subset_rfl
  | cons p ps ih => exact (ih (g.release p)).trans (Finset.erase_subset p g.live)

theorem Globals.releaseAll_live_val {g : Globals k} {ps : List Ptr} (hnd : ps.Nodup)
    (hl : ∀ p ∈ ps, p ∈ g.live) : (g.releaseAll ps).live.val + ps = g.live.val := by
  induction ps generalizing g with
  | nil => simp [Globals.releaseAll]
  | cons p ps ih =>
    rw [List.nodup_cons] at hnd
    have hl' : ∀ x ∈ ps, x ∈ (g.release p).live := fun x hx =>
      Finset.mem_erase.mpr ⟨ne_of_mem_of_not_mem hx hnd.1, hl x (List.mem_cons_of_mem _ hx)⟩
    rw [← Globals.release_live_val (hl p (List.mem_cons_self _ _)), ← ih hnd.2 hl',
      ← Multiset.cons_coe, ← Multiset.singleton_add, add_comm {p} (ps : Multiset Ptr), ← add_assoc]
    rfl

-- ---------------------------------------------------------------------------
-- Steps of one thread
-- ---------------------------------------------------------------------------

section
variable {s : Conc n k} {nodes : Fin k → List Ptr} {m : Model k} (h : ListInv s nodes m)
include h

theorem ListInv.length_lt (l : Fin k) : (nodes l).length < s.g.walkFuel := by
  have hnd := Globals.nodup_of_blocksOf (h.nodup_list l)
  have hsub : (nodes l).toFinset ⊆ s.g.live := fun p hp =>
    h.live_of_list (mem_blocksOf_self (List.mem_toFinset.mp hp))
  have := Finset.card_le_card hsub
  rw [List.toFinset_card_of_nodup hnd] at this
  exact Nat.lt_succ_of_le this

theorem ListInv.findAddress (l : Fin k) (p : Ptr) :
    findAddress s.g p s.g.walkFuel (s.g.heads l) =
      some (((nodes l).find? fun n => s.g.addressOf n = p).getD NULL) := by
  obtain ⟨q, hq⟩ := h.seg l
  exact findAddress_dseg hq (h.length_lt l) p

theorem ListInv.find?_some {l : Fin k} {p f : Ptr}
    (hfind : (nodes l).find? (fun n => s.g.addressOf n = p) = some f) :
    ∃ pre post e, nodes l = pre ++ f :: post ∧ (∀ x ∈ pre, s.g.addressOf x ≠ p) ∧
      s.g.addressOf f = p ∧ s.g.records f = some e ∧ f ≠ NULL ∧ p ∈ s.g.live := by
  obtain ⟨hfp, pre, post, hsplit, hpre⟩ := List.find?_eq_some.mp hfind
  simp only [decide_eq_true_eq, Bool.not_eq_true', decide_eq_false_iff_not] at hfp hpre
  have hfmem : f ∈ nodes l := by simp [hsplit]
  obtain ⟨e, he⟩ := Option.isSome_iff_exists.mp ((h.seg l).choose_spec.isSome hfmem)
  exact ⟨pre, post, e, hsplit, hpre, hfp, he,
    fun h' => h.null (h' ▸ h.live_of_list (mem_blocksOf_self hfmem)),
    h.live_of_list (hfp ▸ mem_blocksOf_address hfmem)⟩

theorem ListInv.model_split {l : Fin k} {p f : Ptr} {pre post : List Ptr} {e : MemoryTable}
    (hsplit : nodes l = pre ++ f :: post) (hfp : s.g.addressOf f = p)
    (he : s.g.records f = some e) :
    m l = s.g.entries pre ++ (p, e.size) :: s.g.entries post ∧ f ∉ pre ++ post ∧
      ∀ x ∈ pre ++ post, x ∈ nodes l := by
  have hentry : e.entry = (p, e.size) := by
    simpa [MemoryTable.entry, Globals.addressOf, he] using hfp
  refine ⟨by rw [← h.model l, hsplit, Globals.entries_append, Globals.entries_cons he, hentry],
    (List.nodup_cons.mp (List.nodup_middle.mp
      (hsplit ▸ Globals.nodup_of_blocksOf (h.nodup_list l)))).1, fun x hx => ?_⟩
  rw [hsplit]
  exact List.mem_append.mpr ((List.mem_append.mp hx).imp id (List.mem_cons_of_mem _))

theorem ListInv.find?_eq_none_iff {l : Fin k} {p : Ptr} :
    (nodes l).find? (fun n => s.g.addressOf n = p) = none ↔ ∀ x ∈ m l, x.1 ≠ p := by
  rcases hfind : (nodes l).find? (fun n => s.g.addressOf n = p) with _ | f
  · simp only [true_iff, ← h.model l]
    exact Globals.entries_ne fun n hn => by simpa using List.find?_eq_none.mp hfind n hn
  · obtain ⟨pre, post, e, hsplit, -, hfp, he, -⟩ := h.find?_some hfind
    obtain ⟨hm, -⟩ := h.model_split hsplit hfp he
    simp only [reduceCtorEq, false_iff, not_forall, not_not]
    exact ⟨(p, e.size), by simp [hm], rfl⟩

theorem ListInv.findAddress_eq_null_iff {l : Fin k} {p : Ptr} :
    DynamicMemory.findAddress s.g p s.g.walkFuel (s.g.heads l) = some NULL ↔
      ∀ x ∈ m l, x.1 ≠ p := by
  rw [h.findAddress l p, ← h.find?_eq_none_iff]
  rcases hfind : (nodes l).find? (fun n => s.g.addressOf n = p) with _ | f
  · simp
  · obtain ⟨-, -, -, -, -, -, -, hfn, -⟩ := h.find?_some hfind
    simp [hfn]

theorem ListInv.release_of_live {p : Ptr} (hp : p ∈ s.g.live) :
    sysFree s.g p = some (s.g.release p) :=
  sysFree_live hp fun h' => h.null (h' ▸ hp)

theorem ListInv.freeAllLoop (L : Layout) (l : Fin k) :
    freeAllLoop L s.g.walkFuel s.g (s.g.heads l) 0 =
      some (s.g.releaseAll (s.g.blocksOf (nodes l)), s.g.weight L (nodes l)) := by
  obtain ⟨q, hq⟩ := h.seg l
  simpa using freeAllLoop_dseg L hq (h.length_lt l) (fun _ => h.live_of_list) h.null
    (h.nodup_list l) 0

theorem ListInv.pushFront {t : Fin n} {bytes : UInt64} {head : Fin k} {theName : String}
    {memory newItem : Ptr} (ht : s.th t = .malloc bytes head theName (.link memory newItem)) :
    ∃ e rec', s.g.records newItem = some e ∧ e.entry = (memory, bytes) ∧
      pushFront s.g head newItem =
        some { s.g with records := rec', heads := Function.update s.g.heads head newItem } ∧
      Seg rec' newItem (newItem :: nodes head) ∧
      (∀ m, m ∉ newItem :: nodes head → rec' m = s.g.records m) ∧
      ∀ m, (rec' m).map MemoryTable.entry = (s.g.records m).map MemoryTable.entry := by
  have hnew : newItem ∈ (s.th t).blocks s.g := by simp [ht, Pc.blocks]
  have hlive := h.live_of_thread hnew
  have hholds := h.holds t
  rw [ht] at hholds
  obtain ⟨e, he, hee⟩ := Option.map_eq_some'.mp hholds
  have hnotin : newItem ∉ nodes head := fun hn => h.not_thread_of_list (mem_blocksOf_self hn) hnew
  exact ⟨e, pushFront_seg (h.seg head) (Globals.nodup_of_blocksOf (h.nodup_list head)) hnotin
    (fun h' => h.null (h' ▸ hlive)) he |>.imp fun _ hr => ⟨he, hee, hr⟩⟩

theorem ListInv.of_same_memory {t : Fin n} {g' : Globals k} {pc' : Pc k}
    (hheads : g'.heads = s.g.heads) (hrec : g'.records = s.g.records) (hlive : g'.live = s.g.live)
    (hb : pc'.blocks g' = (s.th t).blocks s.g) (hholds : pc'.Holds g') :
    ListInv ⟨g', Function.update s.th t pc'⟩ nodes m ∧ s.KeepsOthers t g' :=
  h.of_local hheads (fun p _ _ => by rw [hrec]) (by rw [hlive, hb]) (hlive ▸ h.null) hholds

theorem ListInv.of_alloc {t : Fin n} {q : Ptr} (hq : s.g.Fresh q) {r : Option MemoryTable}
    {pc' : Pc k} (hb : pc'.blocks (s.g.alloc q r) = (s.th t).blocks s.g ++ [q])
    (hholds : pc'.Holds (s.g.alloc q r)) :
    ListInv ⟨s.g.alloc q r, Function.update s.th t pc'⟩ nodes m ∧
      s.KeepsOthers t (s.g.alloc q r) :=
  h.of_local rfl (fun _ hp _ => Function.update_noteq (ne_of_mem_of_not_mem hp hq.2) _ _)
    (by rw [Globals.alloc_live_val hq, hb, ← Multiset.coe_add, Multiset.coe_singleton]; abel)
    (by simp [Globals.alloc, Ne.symm hq.1, h.null]) hholds

theorem ListInv.of_release {t : Fin n} {p : Ptr} {pc' : Pc k}
    (hp : p ∈ (s.th t).blocks s.g) (hb : (s.th t).blocks s.g = p :: pc'.blocks (s.g.release p))
    (hholds : pc'.Holds (s.g.release p)) :
    ListInv ⟨s.g.release p, Function.update s.th t pc'⟩ nodes m ∧
      s.KeepsOthers t (s.g.release p) :=
  h.of_local rfl (fun _ _ hq => Function.update_noteq (ne_of_mem_of_not_mem hp hq).symm _ _)
    (by rw [hb, ← Globals.release_live_val (h.live_of_thread hp)]; simp [add_assoc, add_comm])
    (by simp [h.null]) hholds

theorem ListInv.exec_malloc (L : Layout) {t : Fin n} {bytes : UInt64} {head : Fin k}
    {theName : String} {st : MallocStage} {a : Answer} {g' : Globals k} {pc' : Pc k}
    (ht : s.th t = .malloc bytes head theName st)
    (hx : DYNMEM_malloc L bytes head theName s.g a st = some (g', pc')) :
    Balanced L s.g (s.th t) g' pc' m (m.step ((s.th t).linOp pc')) ∧
      ∃ nodes', ListInv ⟨g', Function.update s.th t pc'⟩ nodes' (m.step ((s.th t).linOp pc')) ∧
        s.KeepsOthers t g' := by
  rw [ht]
  cases st with
  | calloc =>
    rcases sysCalloc_cases s.g none a with hc | ⟨q, hq, hc⟩
    · simp only [DYNMEM_malloc, hc, if_true, Option.some.injEq, Prod.mk.injEq] at hx
      obtain ⟨rfl, rfl⟩ := hx
      exact ⟨fun hi => ⟨hi, rfl⟩, nodes, h.of_same_memory rfl rfl rfl (by simp [ht, Pc.blocks])
        trivial⟩
    · simp only [DYNMEM_malloc, hc, hq.1, if_false, Option.some.injEq, Prod.mk.injEq] at hx
      obtain ⟨rfl, rfl⟩ := hx
      exact ⟨fun hi => ⟨hi, rfl⟩, nodes, h.of_alloc hq (by simp [ht, Pc.blocks]) trivial⟩
  | item memory =>
    rcases sysCalloc_cases s.g (some ⟨memory, bytes, copyName L theName, NULL, NULL⟩) a
      with hc | ⟨q, hq, hc⟩
    · simp only [DYNMEM_malloc, hc, if_true, Option.some.injEq, Prod.mk.injEq] at hx
      obtain ⟨rfl, rfl⟩ := hx
      exact ⟨fun hi => ⟨hi, rfl⟩, nodes, h.of_same_memory rfl rfl rfl (by simp [ht, Pc.blocks])
        trivial⟩
    · simp only [DYNMEM_malloc, hc, hq.1, if_false, Option.some.injEq, Prod.mk.injEq] at hx
      obtain ⟨rfl, rfl⟩ := hx
      exact ⟨fun hi => ⟨hi, rfl⟩, nodes, h.of_alloc hq (by simp [ht, Pc.blocks])
        (by simp [Pc.Holds, Globals.alloc, MemoryTable.entry])⟩
  | rollback memory =>
    have hmem : memory ∈ (s.th t).blocks s.g := by simp [ht, Pc.blocks]
    simp only [DYNMEM_malloc, h.release_of_live (h.live_of_thread hmem), Option.bind_eq_bind,
      Option.some_bind, Option.some.injEq, Prod.mk.injEq] at hx
    obtain ⟨rfl, rfl⟩ := hx
    exact ⟨fun hi => ⟨hi, rfl⟩, nodes, h.of_release hmem (by simp [ht, Pc.blocks]) trivial⟩
  | link memory newItem =>
    have hb : (s.th t).blocks s.g = [memory, newItem] := by simp [ht, Pc.blocks]
    have hnew : newItem ∈ (s.th t).blocks s.g := by simp [hb]
    obtain ⟨e, rec', he, hee, hpush, hseg, hfr, hsame⟩ := h.pushFront ht
    simp only [DYNMEM_malloc, hpush, Option.bind_eq_bind, Option.some_bind, Option.some.injEq,
      Prod.mk.injEq] at hx
    obtain ⟨rfl, rfl⟩ := hx
    have hsame' : Globals.SameEntries
        { s.g with records := rec', heads := Function.update s.g.heads head newItem } s.g := hsame
    refine ⟨fun hi => ⟨hi, ?_⟩, Function.update nodes head (newItem :: nodes head),
      h.of_list (l := head) (fun j hj => Function.update_noteq hj _ _)
      (fun p _ hpl hpt => hfr p ?_) (by simpa using hseg) ?_
      (fun j hj => Function.update_noteq hj _ _) ?_ (by simpa using h.null) trivial⟩
    · show _ + (bytes + L.tableSize) + _ = _ + 0 + Model.total L ((Op.push head memory bytes).apply m)
      rw [Model.total_push, add_zero, add_assoc, add_comm (bytes + L.tableSize)]
    · simp only [List.mem_cons, not_or]
      exact ⟨fun h' => hpt (h' ▸ hnew), fun h' => hpl (mem_blocksOf_self h')⟩
    · rw [hsame'.entries, Globals.entries, Globals.recordsOn_cons he]
      simp [Op.apply, Model.step, Pc.linOp, ← h.model head, Globals.entries, hee]
    · have haddr : s.g.addressOf newItem = memory := by
        simp only [Globals.addressOf, he, Option.map_some', Option.getD_some]
        exact congrArg Prod.fst hee
      rw [hsame'.blocksOf, Globals.blocksOf_cons, hb, haddr, add_assoc, Multiset.coe_add]
      simp only [Pc.blocks, Multiset.coe_nil, add_zero]
      exact congrArg _ (Multiset.coe_eq_coe.mpr List.perm_append_comm)
  | count memory =>
    simp only [DYNMEM_malloc, Option.some.injEq, Prod.mk.injEq] at hx
    obtain ⟨rfl, rfl⟩ := hx
    exact ⟨fun hi =>
        ⟨hi, by simp [DYNMEM_IncreaseMemoryCounter, Pc.pending, Model.step, Pc.linOp]⟩,
      nodes, h.of_same_memory rfl rfl rfl (by simp [ht, Pc.blocks]) trivial⟩

theorem ListInv.realloc_update (L : Layout) {t : Fin n} {head : Fin k} {p q' f : Ptr}
    {bytes : UInt64} {pre post : List Ptr} {g₁ : Globals k} {e : MemoryTable}
    (hb : (s.th t).blocks s.g = []) (hsplit : nodes head = pre ++ f :: post)
    (hpre : ∀ x ∈ pre, s.g.addressOf x ≠ p) (hfp : s.g.addressOf f = p)
    (he : g₁.records f = some e) (hheads : g₁.heads = s.g.heads)
    (hlive : g₁.live.val + {p} = s.g.live.val + {q'})
    (hrec : ∀ x ∈ s.g.live, x ≠ p → g₁.records x = s.g.records x) (hnull : NULL ∉ g₁.live)
    (hcount : g₁.theTotalMemory = s.g.theTotalMemory) (hinit : g₁.initialized = s.g.initialized)
    {g' : Globals k} (hg' : g' = { g₁ with
      records := Function.update g₁.records f (some { e with address := q', size := bytes }) }) :
    Balanced L s.g (.realloc p bytes head .listSection) g' (.realloc p bytes head (.count e.size q'))
        m ((Op.replace head p q' bytes).apply m) ∧
      ListInv ⟨g', Function.update s.th t (.realloc p bytes head (.count e.size q'))⟩
        nodes ((Op.replace head p q' bytes).apply m) ∧ s.KeepsOthers t g' := by
  subst hg'
  set g' : Globals k := { g₁ with
    records := Function.update g₁.records f (some { e with address := q', size := bytes }) }
  have hnd := h.nodup_list head
  have hfmem : f ∈ nodes head := by simp [hsplit]
  have hnp : ∀ x ∈ nodes head, x ≠ p := fun x hx => hfp ▸ Globals.ne_addressOf hnd hx hfmem
  have hpb : p ∈ s.g.blocksOf (nodes head) := hfp ▸ mem_blocksOf_address hfmem
  have hfr : ∀ x ∈ s.g.live, x ≠ p → x ≠ f → g'.records x = s.g.records x :=
    fun x hx hxp hxf => by
    simp only [g', Function.update_noteq hxf]; exact hrec x hx hxp
  have hlist : ∀ x ∈ nodes head, x ≠ f → g'.records x = s.g.records x := fun x hx =>
    hfr x (h.live_of_list (mem_blocksOf_self hx)) (hnp x hx)
  have he₀ : s.g.records f = some e := by
    rw [← hrec f (h.live_of_list (mem_blocksOf_self hfmem)) (hnp f hfmem)]; exact he
  obtain ⟨hm, hnf, hsub⟩ := h.model_split hsplit hfp he₀
  have hpp : ∀ x ∈ pre ++ post, g'.records x = s.g.records x := fun x hx =>
    hlist x (hsub x hx) (ne_of_mem_of_not_mem hx hnf)
  have hpre' : ∀ x ∈ pre, g'.records x = s.g.records x := fun x hx =>
    hpp x (List.mem_append_left _ hx)
  have hpost' : ∀ x ∈ post, g'.records x = s.g.records x := fun x hx =>
    hpp x (List.mem_append_right _ hx)
  have hf' : g'.records f = some { e with address := q', size := bytes } := Function.update_same ..
  obtain ⟨q, hq⟩ := h.seg head
  rw [← Function.update_eq_self head nodes]
  refine ⟨fun hi => ⟨hinit ▸ hi, ?_⟩, h.of_list (fun j _ => congrFun hheads j)
    (fun x hx hxl _ => hfr x hx (fun h => hxl (h ▸ hpb))
      (fun h => hxl (h ▸ mem_blocksOf_self hfmem)))
    ⟨q, hheads ▸ hq.frame fun x hx => ?_⟩ ?_ (fun j hj => Function.update_noteq hj _ _) ?_ hnull
    trivial⟩
  · have := Model.total_replace L (q := q') (c := bytes) hm (Globals.entries_ne hpre)
    show g₁.theTotalMemory + (bytes - e.size) + _ = _ + 0 + _
    rw [hcount, add_zero, eq_sub_of_add_eq this]
    abel
  · by_cases hxf : x = f
    · subst hxf; simp [hf', he₀, MemoryTable.links]
    · rw [hlist x hx hxf]
  · rw [Op.apply, Function.update_same, hm, replaceFirst_append (Globals.entries_ne hpre), hsplit,
      Globals.entries_append, Globals.entries_cons hf', Globals.entries_congr hpre',
      Globals.entries_congr hpost']
    rfl
  · have hperm : ∀ b : Ptr, ((s.g.blocksOf pre ++ b :: f :: s.g.blocksOf post : List Ptr) :
        Multiset Ptr) = {b} + ↑(s.g.blocksOf pre ++ f :: s.g.blocksOf post) := fun b => by
      rw [Multiset.coe_eq_coe.mpr List.perm_middle, ← Multiset.cons_coe, Multiset.singleton_add]
    have hq' : g'.addressOf f = q' := by simp [Globals.addressOf, hf']
    rw [hb, hsplit, Globals.blocksOf_append, Globals.blocksOf_append, Globals.blocksOf_cons,
      Globals.blocksOf_cons, Globals.blocksOf_congr hpre', Globals.blocksOf_congr hpost', hq', hfp,
      hperm, hperm, ← add_assoc, ← add_assoc]
    simp only [Pc.blocks, Multiset.coe_nil, add_zero]
    exact congrArg (· + _) hlive

theorem ListInv.exec_realloc (L : Layout) {t : Fin n} {p : Ptr} {bytes : UInt64} {head : Fin k}
    {st : ReallocStage} {a : Answer} (ha : a.KeepsBlock) {g' : Globals k} {pc' : Pc k}
    (ht : s.th t = .realloc p bytes head st)
    (hx : DYNMEM_realloc p bytes head s.g a st = some (g', pc')) :
    Balanced L s.g (s.th t) g' pc' m (m.step ((s.th t).linOp pc')) ∧
      ∃ nodes', ListInv ⟨g', Function.update s.th t pc'⟩ nodes' (m.step ((s.th t).linOp pc')) ∧
        s.KeepsOthers t g' := by
  have hb : (s.th t).blocks s.g = [] := by rw [ht]; cases st <;> rfl
  rw [ht]
  cases st with
  | count oldSize newMemory =>
    simp only [DYNMEM_realloc, Option.some.injEq, Prod.mk.injEq] at hx
    obtain ⟨rfl, rfl⟩ := hx
    refine ⟨fun hi => ⟨by split <;> exact hi, ?_⟩, nodes, h.of_same_memory (by split <;> rfl)
      (by split <;> rfl) (by split <;> rfl) (by rw [hb]; rfl) trivial⟩
    show _ + 0 + _ = _ + (bytes - oldSize) + _
    split <;> simp only [DYNMEM_IncreaseMemoryCounter, DYNMEM_DecreaseMemoryCounter] <;> abel
  | listSection =>
    rcases hfind : (nodes head).find? (fun n => s.g.addressOf n = p) with _ | f
    · simp only [DYNMEM_realloc, h.findAddress head p, hfind, Option.getD_none, if_true,
        Option.bind_eq_bind, Option.some_bind, Option.some.injEq, Prod.mk.injEq] at hx
      obtain ⟨rfl, rfl⟩ := hx
      exact ⟨fun hi => ⟨hi, rfl⟩, nodes, h.of_same_memory rfl rfl rfl (by rw [hb]; rfl) trivial⟩
    · obtain ⟨pre, post, e, hsplit, hpre, hfp, he, hfn, hplive⟩ := h.find?_some hfind
      have hfmem : f ∈ nodes head := by simp [hsplit]
      have hflive := h.live_of_list (mem_blocksOf_self hfmem)
      simp only [DYNMEM_realloc, h.findAddress head p, hfind, Option.getD_some, hfn, if_false,
        Option.bind_eq_bind, Option.some_bind] at hx
      rcases sysRealloc_cases hplive bytes ha with hr | hr | ⟨q, hqp, hq, hr⟩
      · simp only [hr, Option.some_bind, ne_eq, not_true_eq_false, if_false, Option.some.injEq,
          Prod.mk.injEq] at hx
        obtain ⟨rfl, rfl⟩ := hx
        exact ⟨fun hi => ⟨hi, rfl⟩, nodes,
          h.of_same_memory rfl rfl rfl (by rw [hb]; rfl) trivial⟩
      · have hpn : p ≠ NULL := fun h' => h.null (h' ▸ hplive)
        simp only [hr, Option.some_bind, ne_eq, hpn, not_false_eq_true, if_true, he,
          Globals.modify_of_some he, Option.some.injEq, Prod.mk.injEq] at hx
        obtain ⟨rfl, rfl⟩ := hx
        obtain ⟨hbal, hinv⟩ := h.realloc_update L hb hsplit hpre hfp he rfl (by rfl)
          (fun _ _ _ => rfl) h.null rfl rfl rfl
        exact ⟨hbal, nodes, hinv⟩
      · have hfpq : f ≠ p := hfp ▸ Globals.ne_addressOf (h.nodup_list head) hfmem hfmem
        have he₁ : (s.g.move p q).records f = some e := by
          rw [Globals.move_records hq hflive hfpq, he]
        simp only [hr, Option.some_bind, ne_eq, hq.1, not_false_eq_true, if_true, he₁,
          Globals.modify_of_some he₁, Option.some.injEq, Prod.mk.injEq] at hx
        obtain ⟨rfl, rfl⟩ := hx
        obtain ⟨hbal, hinv⟩ := h.realloc_update L hb hsplit hpre hfp he₁ rfl
          (Globals.move_live_val hplive hq)
          (fun _ => Globals.move_records hq)
          (by simp [Globals.move, Ne.symm hq.1, h.null]) rfl rfl rfl
        exact ⟨hbal, nodes, hinv⟩

theorem ListInv.exec_free (L : Layout) {t : Fin n} {p : Ptr} {head : Fin k}
    {st : FreeStage} {g' : Globals k} {pc' : Pc k}
    (ht : s.th t = .free p head st)
    (hx : DYNMEM_free L p head s.g st = some (g', pc')) :
    Balanced L s.g (s.th t) g' pc' m (m.step ((s.th t).linOp pc')) ∧
      ∃ nodes', ListInv ⟨g', Function.update s.th t pc'⟩ nodes' (m.step ((s.th t).linOp pc')) ∧
        s.KeepsOthers t g' := by
  have hholds := h.holds t
  rw [ht] at hholds ⊢
  cases st with
  | listSection =>
    have hb : (s.th t).blocks s.g = [] := by rw [ht]; rfl
    rcases hfind : (nodes head).find? (fun n => s.g.addressOf n = p) with _ | f
    · simp only [DYNMEM_free, h.findAddress head p, hfind, Option.getD_none, if_true,
        Option.bind_eq_bind, Option.some_bind, Option.some.injEq, Prod.mk.injEq] at hx
      obtain ⟨rfl, rfl⟩ := hx
      -- the label erases `p`, which no entry has
      simp only [Pc.linOp, Model.step, Op.apply_erase_of_not_mem (h.find?_eq_none_iff.mp hfind)]
      exact ⟨fun hi => ⟨hi, rfl⟩, nodes, h.of_same_memory rfl rfl rfl (by rw [hb]; rfl) trivial⟩
    · obtain ⟨pre, post, e, hsplit, hpre, hfp, he, hfn, -⟩ := h.find?_some hfind
      obtain ⟨rec', h', hun, hseg, hfr, hsame⟩ := unlink_seg (hsplit ▸ h.seg head)
        (hsplit ▸ Globals.nodup_of_blocksOf (h.nodup_list head))
      simp only [DYNMEM_free, h.findAddress head p, hfind, Option.getD_some, hfn, if_false,
        hun, Option.bind_eq_bind, Option.some_bind, Option.some.injEq, Prod.mk.injEq] at hx
      obtain ⟨hg', rfl⟩ := hx
      have hrec : g'.records = rec' := hg' ▸ rfl
      have hheads : g'.heads = Function.update s.g.heads head h' := hg' ▸ rfl
      have hlive : g'.live = s.g.live := hg' ▸ rfl
      have hsame' : g'.SameEntries s.g := fun x => by rw [hrec]; exact hsame x
      obtain ⟨hm, hnf, hsub⟩ := h.model_split hsplit hfp he
      have hef : g'.records f = some e := by rw [hrec, hfr f hnf, he]
      refine ⟨fun hi => ⟨hg' ▸ hi, ?_⟩, Function.update nodes head (pre ++ post),
        h.of_list (l := head) (fun j hj => by rw [hheads, Function.update_noteq hj])
        (fun x _ hxl _ => hrec ▸ hfr x fun hx => hxl (mem_blocksOf_self (hsub x hx)))
        (by rw [hrec, hheads, Function.update_same]; exact hseg)
        ?_ (fun j hj => Function.update_noteq hj _ _) ?_ (hlive ▸ h.null)
        (by simp [Pc.Holds, hef])⟩
      · have hT : g'.theTotalMemory = s.g.theTotalMemory := hg' ▸ rfl
        change _ + -(((g'.records f).map fun e => e.size + L.tableSize).getD 0) + _ =
          _ + 0 + Model.total L ((Op.erase head p).apply m)
        rw [hef, hT, eq_sub_of_add_eq (Model.total_erase L hm (Globals.entries_ne hpre))]
        simp only [Option.map_some', Option.getD_some]
        abel
      · show _ = Function.update m head (eraseFirst p (m head)) head
        rw [hsame'.entries, Function.update_same, hm, eraseFirst_append (Globals.entries_ne hpre),
          Globals.entries_append]
      · rw [hb, hlive, hsame'.blocksOf, hsplit, Globals.blocksOf_append, Globals.blocksOf_append,
          Globals.blocksOf_cons, hfp]
        simp only [Pc.blocks, hsame'.addressOf, hfp, Multiset.coe_nil, add_zero, add_assoc,
          Multiset.coe_add]
        have hperm : ([p, f] ++ s.g.blocksOf post).Perm (s.g.blocksOf post ++ [p, f]) :=
          List.perm_append_comm
        rw [List.append_assoc]
        exact congrArg _ (Multiset.coe_eq_coe.mpr (hperm.append_left _))
  | count found =>
    obtain ⟨e, he⟩ := Option.isSome_iff_exists.mp hholds
    simp only [DYNMEM_free, he, Option.bind_eq_bind, Option.some_bind, Option.some.injEq,
      Prod.mk.injEq] at hx
    obtain ⟨rfl, rfl⟩ := hx
    refine ⟨fun hi => ⟨hi, ?_⟩, nodes, h.of_same_memory rfl rfl rfl (by rw [ht]; rfl) hholds⟩
    change _ + 0 + _ = _ + -(((s.g.records found).map fun e => e.size + L.tableSize).getD 0) +
      Model.total L m
    simp [DYNMEM_DecreaseMemoryCounter, he, sub_eq_add_neg]
  | address found =>
    obtain ⟨e, he⟩ := Option.isSome_iff_exists.mp hholds
    have hb : (s.th t).blocks s.g = [e.address, found] := by
      simp [ht, Pc.blocks, Globals.addressOf, he]
    have hmem : e.address ∈ (s.th t).blocks s.g := by simp [hb]
    simp only [DYNMEM_free, he, h.release_of_live (h.live_of_thread hmem),
      Option.bind_eq_bind, Option.some_bind, Option.some.injEq, Prod.mk.injEq] at hx
    obtain ⟨rfl, rfl⟩ := hx
    exact ⟨fun hi => ⟨hi, rfl⟩, nodes, h.of_release hmem (by rw [hb]; rfl) trivial⟩
  | record found =>
    have hmem : found ∈ (s.th t).blocks s.g := by simp [ht, Pc.blocks]
    simp only [DYNMEM_free, h.release_of_live (h.live_of_thread hmem),
      Option.bind_eq_bind, Option.some_bind, Option.some.injEq, Prod.mk.injEq] at hx
    obtain ⟨rfl, rfl⟩ := hx
    exact ⟨fun hi => ⟨hi, rfl⟩, nodes, h.of_release hmem (by rw [ht]; rfl) trivial⟩

theorem ListInv.exec_freeAll (L : Layout) {t : Fin n} {head : Fin k}
    {st : FreeAllStage} {g' : Globals k} {pc' : Pc k}
    (ht : s.th t = .freeAll head st)
    (hx : DYNMEM_freeAll L head s.g st = some (g', pc')) :
    Balanced L s.g (s.th t) g' pc' m (m.step ((s.th t).linOp pc')) ∧
      ∃ nodes', ListInv ⟨g', Function.update s.th t pc'⟩ nodes' (m.step ((s.th t).linOp pc')) ∧
        s.KeepsOthers t g' := by
  have hb : (s.th t).blocks s.g = [] := by rw [ht]; cases st <;> rfl
  rw [ht]
  cases st with
  | listSection =>
    have hnd := h.nodup_list head
    simp only [DYNMEM_freeAll, h.freeAllLoop L head, Option.bind_eq_bind, Option.some_bind,
      Option.some.injEq, Prod.mk.injEq] at hx
    obtain ⟨rfl, rfl⟩ := hx
    refine ⟨fun hi => ⟨by simpa using hi, ?_⟩, Function.update nodes head [], h.of_list (l := head)
      (fun j hj => by simp [Function.update_noteq hj])
      (fun x _ hxl _ => Globals.releaseAll_records hxl) (by simpa using ⟨NULL, rfl, rfl⟩)
      (by simp [Globals.entries, Globals.recordsOn, Op.apply, Model.step, Pc.linOp])
      (fun j hj => Function.update_noteq hj _ _) ?_
      (fun h' => h.null (Globals.releaseAll_live_subset _ _ h')) trivial⟩
    · have := Model.total_clear L m head
      rw [← h.model head, ← Globals.weight_eq_entriesTotal] at this
      change _ + -s.g.weight L (nodes head) + _ = _ + 0 + _
      rw [← this]
      simp only [Globals.setHead_theTotalMemory, Globals.releaseAll_theTotalMemory, zero_add,
        add_zero]
      abel
    · rw [hb]
      simpa [Globals.blocksOf, Pc.blocks] using
        Globals.releaseAll_live_val hnd fun _ => h.live_of_list
  | count totalSizeRemoved =>
    simp only [DYNMEM_freeAll, Option.some.injEq, Prod.mk.injEq] at hx
    obtain ⟨rfl, rfl⟩ := hx
    refine ⟨fun hi => ⟨by split <;> exact hi, ?_⟩, nodes, h.of_same_memory (by split <;> rfl)
      (by split <;> rfl) (by split <;> rfl) (by rw [hb]; rfl) trivial⟩
    change _ + 0 + _ = _ + -totalSizeRemoved + Model.total L m
    split
    · simp [DYNMEM_DecreaseMemoryCounter, sub_eq_add_neg]
    · simp [UInt64.eq_zero_of_not_pos ‹_›]

theorem ListInv.exec (L : Layout) {t : Fin n} {a : Answer} (ha : a.KeepsBlock) {g' : Globals k}
    {pc' : Pc k} (hx : (s.th t).exec L s.g a = some (g', pc')) :
    Balanced L s.g (s.th t) g' pc' m (m.step ((s.th t).linOp pc')) ∧
      ∃ nodes', ListInv ⟨g', Function.update s.th t pc'⟩ nodes' (m.step ((s.th t).linOp pc')) ∧
        s.KeepsOthers t g' := by
  cases ht : s.th t with
  | done r rep => rw [ht] at hx; cases hx
  | init =>
    rw [ht] at hx; cases hx
    exact ⟨fun hi => ⟨by simp, by rw [DYNMEM_Init_of_initialized hi]; rfl⟩, nodes,
      h.of_same_memory (by simp) (by simp) (by simp) (by rw [ht]; rfl) trivial⟩
  | getTotalMemory =>
    rw [ht] at hx; cases hx
    exact ⟨fun hi => ⟨hi, rfl⟩, nodes, h.of_same_memory rfl rfl rfl (by rw [ht]; rfl) trivial⟩
  | malloc bytes head theName st =>
    have := h.exec_malloc L ht (by rw [ht] at hx; exact hx)
    rwa [ht] at this
  | realloc p bytes head st =>
    have := h.exec_realloc L ha ht (by rw [ht] at hx; exact hx)
    rwa [ht] at this
  | free p head st =>
    have := h.exec_free L ht (by rw [ht] at hx; exact hx)
    rwa [ht] at this
  | freeAll head st =>
    have := h.exec_freeAll L ht (by rw [ht] at hx; exact hx)
    rwa [ht] at this

theorem ListInv.step {L : Layout} {o : Option (Op k)} {s' : Conc n k}
    (hs : Step L Answer.KeepsBlock s o s') : ∃ nodes', ListInv s' nodes' (m.step o) := by
  cases hs with
  | call t c hr =>
    exact ⟨nodes, (h.of_same_memory rfl rfl rfl
      (by rw [Call.entry_blocks, Pc.blocks_of_returned hr]) (c.entry_holds _)).1⟩
  | exec t a ha hx =>
    obtain ⟨-, nodes', h', -⟩ := h.exec L ha hx
    exact ⟨nodes', h'⟩

theorem ListInv.step_count {L : Layout} {o : Option (Op k)} {s' : Conc n k}
    (hc : CountInv L s m) (hs : Step L Answer.KeepsBlock s o s') :
    ∃ nodes', ListInv s' nodes' (m.step o) ∧ CountInv L s' (m.step o) := by
  cases hs with
  | call t c hr =>
    refine ⟨nodes, (h.of_same_memory rfl rfl rfl
      (by rw [Call.entry_blocks, Pc.blocks_of_returned hr]) (c.entry_holds _)).1,
      hc.of_balanced (fun hi => ⟨hi, ?_⟩) fun _ _ _ _ => rfl⟩
    rw [Call.entry_pending, Pc.pending_of_returned hr]
    rfl
  | exec t a ha hx =>
    obtain ⟨hb, nodes', h', hk⟩ := h.exec L ha hx
    exact ⟨nodes', h', hc.of_balanced hb hk⟩

end

-- ---------------------------------------------------------------------------
-- Whole runs
-- ---------------------------------------------------------------------------

theorem ListInv.idle {g : Globals k} (hheads : ∀ l, g.heads l = NULL) (hlive : g.live = ∅) :
    ListInv (Conc.idle g : Conc n k) (fun _ => []) Model.empty where
  seg l := ⟨NULL, hheads l ▸ ⟨rfl, rfl⟩⟩
  model _ := rfl
  accounts := by simp [hlive, Conc.accounted, Conc.idle, Globals.blocksOf, Pc.blocks]
  null := by simp [Conc.idle, hlive]
  holds _ := trivial

theorem CountInv.idle (L : Layout) {g : Globals k} (hinit : g.initialized = true)
    (hzero : g.theTotalMemory = 0) : CountInv L (Conc.idle g : Conc n k) Model.empty where
  initialized := hinit
  counter := by simp [hzero, Conc.idle, Pc.pending, Model.total, Model.empty]

theorem ListInv.initLoad :
    ListInv (Conc.idle (DYNMEM_Init Globals.load) : Conc n k) (fun _ => []) Model.empty :=
  ListInv.idle (fun _ => rfl) rfl

theorem CountInv.initLoad (L : Layout) :
    CountInv L (Conc.idle (DYNMEM_Init Globals.load) : Conc n k) Model.empty :=
  CountInv.idle L rfl rfl

theorem ListInv.reach {L : Layout} {s₀ s : Conc n k} {nodes₀ : Fin k → List Ptr} {m₀ : Model k}
    {ops : List (Op k)} (h₀ : ListInv s₀ nodes₀ m₀) (hr : Reach L Answer.KeepsBlock s₀ s ops) :
    ∃ nodes, ListInv s nodes (m₀.applyAll ops) := by
  induction hr with
  | start => exact ⟨nodes₀, h₀⟩
  | step _ hs ih =>
    obtain ⟨nodes, h⟩ := ih
    rw [Model.applyAll_step]
    exact h.step hs

theorem ListInv.reach_count {L : Layout} {s₀ s : Conc n k} {nodes₀ : Fin k → List Ptr}
    {m₀ : Model k} {ops : List (Op k)} (h₀ : ListInv s₀ nodes₀ m₀)
    (hc₀ : CountInv L s₀ m₀)
    (hr : Reach L Answer.KeepsBlock s₀ s ops) :
    ∃ nodes, ListInv s nodes (m₀.applyAll ops) ∧ CountInv L s (m₀.applyAll ops) := by
  induction hr with
  | start => exact ⟨nodes₀, h₀, hc₀⟩
  | step _ hs ih =>
    obtain ⟨nodes, h, hc⟩ := ih
    rw [Model.applyAll_step]
    exact h.step_count hc hs

end DynamicMemory
