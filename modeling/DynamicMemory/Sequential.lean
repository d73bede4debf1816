import DynamicMemory.Lists

/-!
# Single-threaded runs

A lone thread runs calls one after another, each to its return. Each call changes the lists
as the list model says for what it returned (`Call.model`): `Pc.Tracks` says where a call
stands between its steps, and `ListInv.runCall` follows it to its return. Over a whole run from
empty lists the lists stay well formed and `DYNMEM_dump` reads the list model back
(`seqRun_lists`); after `DYNMEM_Init` the counter is the sum of the lists' totals
(`seqRun_counter`).

All this needs an allocator that keeps a block when `realloc` returns `NULL`. glibc's
`realloc(p, 0)` releases `p` and returns `NULL`; `DYNMEM_realloc` then keeps tracking `p`,
and a later `DYNMEM_free` of it releases it a second time (`realloc_zero_double_free`).
-/

namespace DynamicMemory

variable {k : Nat}

-- ---------------------------------------------------------------------------
-- One thread
-- ---------------------------------------------------------------------------

def Conc.solo (g : Globals k) (pc : Pc k) : Conc 1 k := ⟨g, fun _ => pc⟩

@[simp] theorem Conc.solo_g (g : Globals k) (pc : Pc k) : (Conc.solo g pc).g = g := rfl

@[simp] theorem Conc.solo_update (g g' : Globals k) (pc pc' : Pc k) (t : Fin 1) :
    (⟨g', Function.update (Conc.solo g pc).th t pc'⟩ : Conc 1 k) = Conc.solo g' pc' := by
  simp only [Conc.solo, Conc.mk.injEq, true_and]
  funext u
  rw [Subsingleton.elim u t, Function.update_same]

theorem runCall_done (L : Layout) (g : Globals k) (r : Ret) (rep : Option Report) (as : List Answer) :
    runCall L g (.done r rep) as = some (g, r, rep) := by
  cases as <;> rfl

theorem runCall_cons (L : Layout) {pc : Pc k} (hr : ¬ pc.Returned) (g : Globals k) (a : Answer)
    (as : List Answer) :
    runCall L g pc (a :: as) = (pc.exec L g a).bind fun r => runCall L r.1 r.2 as := by
  cases pc <;> first | exact absurd trivial hr | rfl

theorem runCall_nil (L : Layout) {pc : Pc k} (hr : ¬ pc.Returned) (g : Globals k) :
    runCall L g pc [] = none := by
  cases pc <;> first | exact absurd trivial hr | rfl

-- ---------------------------------------------------------------------------
-- Where a call stands
-- ---------------------------------------------------------------------------

/-- Where a call `c`, started on the lists `m₀`, stands when its thread is at `pc` and the
lists are `m`: once it returns `r`, the lists will be `c.model m₀ r`. -/
def Pc.Tracks (c : Call k) (m₀ m : Model k) : Pc k → Prop
  | .done r _ => m = c.model m₀ r
  | .init | .getTotalMemory => m = m₀ ∧ ∀ r, c.model m₀ r = m₀
  | .malloc bytes head _ st =>
    (∀ q, c.model m₀ (.ptr q) = if q = NULL then m₀ else (Op.push head q bytes).apply m₀) ∧
    match st with
    | .calloc | .rollback _ => m = m₀
    | .item memory | .link memory _ => m = m₀ ∧ memory ≠ NULL
    | .count memory => m = (Op.push head memory bytes).apply m₀ ∧ memory ≠ NULL
  | .realloc p bytes head st =>
    (∀ q, c.model m₀ (.ptr q) =
      if q = NULL then m₀ else (Op.replace head p q bytes).apply m₀) ∧
    match st with
    | .listSection => m = m₀
    | .count _ q => m = (Op.replace head p q bytes).apply m₀ ∧ q ≠ NULL
  | .free p head st =>
    (∀ r, c.model m₀ r = (Op.erase head p).apply m₀) ∧
    match st with
    | .listSection => m = m₀
    | _ => m = (Op.erase head p).apply m₀
  | .freeAll head st =>
    (∀ r, c.model m₀ r = (Op.clear head).apply m₀) ∧
    match st with
    | .listSection => m = m₀
    | .count _ => m = (Op.clear head).apply m₀

section
variable {L : Layout} {g : Globals k} {pc : Pc k} {nodes : Fin k → List Ptr} {m : Model k}

theorem ListInv.entry_ne_null (h : ListInv (Conc.solo g pc) nodes m) (l : Fin k) :
    ∀ y ∈ m l, y.1 ≠ NULL := by
  rw [← h.model l]
  exact Globals.entries_ne fun n hn h' => h.null (h' ▸ h.live_of_list (mem_blocksOf_address hn))

theorem ListInv.entry_tracks (h : ListInv (Conc.solo g pc) nodes m) (c : Call k) :
    c.entry.Tracks c m m := by
  cases c with
  | init | getTotalMemory => exact ⟨rfl, fun r => by cases r <;> rfl⟩
  | malloc bytes head theName => exact ⟨fun q => rfl, rfl⟩
  | realloc p bytes head =>
    by_cases hp : p = NULL
    · subst hp; exact ⟨fun q => by simp [Call.model], rfl⟩
    · simp only [Call.entry, hp, if_false]
      exact ⟨fun q => by simp [Call.model, hp], rfl⟩
  | free p head =>
    by_cases hp : p = NULL
    · subst hp
      exact (Op.apply_erase_of_not_mem (h.entry_ne_null head)).symm
    · simp only [Call.entry, hp, if_false]
      exact ⟨fun r => by cases r <;> rfl, rfl⟩
  | freeAll head => exact ⟨fun r => by cases r <;> rfl, rfl⟩

theorem Pc.Tracks.exec {c : Call k} {m₀ : Model k} (htr : pc.Tracks c m₀ m) {a : Answer}
    {g' : Globals k} {pc' : Pc k} (hx : pc.exec L g a = some (g', pc')) :
    pc'.Tracks c m₀ (m.step (pc.linOp pc')) := by
  cases Pc.exec_next hx with
  | init | getTotalMemory => exact htr.1.trans (htr.2 _).symm
  | mallocNull | mallocRolledBack | reallocNull => exact htr.2.trans (by simp [htr.1])
  | mallocItem hm => exact ⟨htr.1, htr.2, hm⟩
  | mallocRollback => exact ⟨htr.1, htr.2.1⟩
  | mallocLink | freeCount | freeAddress => exact htr
  | mallocLinked => exact ⟨htr.1, by rw [htr.2.1]; rfl, htr.2.2⟩
  | mallocCount | reallocCount => exact htr.2.1.trans (by simp [htr.1, htr.2.2])
  | reallocUpdate hq => exact ⟨htr.1, by rw [htr.2]; rfl, hq⟩
  | freeMissing _ => show (Op.erase _ _).apply m = _; rw [htr.2]; exact (htr.1 _).symm
  | freeUnlink | freeAllSection => exact ⟨htr.1, by rw [htr.2]; rfl⟩
  | freeRecord | freeAllCount => exact htr.2.trans (htr.1 _).symm

-- ---------------------------------------------------------------------------
-- Calls and runs
-- ---------------------------------------------------------------------------

theorem Conc.solo_keepsOthers (g g' : Globals k) (pc : Pc k) :
    (Conc.solo g pc).KeepsOthers 0 g' :=
  fun u hu => absurd (Subsingleton.elim u 0) hu

theorem ListInv.solo_exec (h : ListInv (Conc.solo g pc) nodes m) {a : Answer}
    (ha : a.KeepsBlock) {g' : Globals k} {pc' : Pc k} (hx : pc.exec L g a = some (g', pc')) :
    Balanced L g pc g' pc' m (m.step (pc.linOp pc')) ∧
      ∃ nodes', ListInv (Conc.solo g' pc') nodes' (m.step (pc.linOp pc')) := by
  obtain ⟨hb, nodes', h', -⟩ := h.exec L (t := 0) ha hx
  exact ⟨hb, nodes', by simpa using h'⟩

theorem CountInv.solo_exec {m' : Model k} (hc : CountInv L (Conc.solo g pc) m) {g' : Globals k}
    {pc' : Pc k} (hb : Balanced L g pc g' pc' m m') : CountInv L (Conc.solo g' pc') m' := by
  simpa using hc.of_balanced (t := 0) hb (Conc.solo_keepsOthers g g' pc)

theorem ListInv.solo_retarget (h : ListInv (Conc.solo g pc) nodes m) {pc' : Pc k}
    (hb : pc'.blocks g = pc.blocks g) (hholds : pc'.Holds g) : ListInv (Conc.solo g pc') nodes m := by
  simpa using (h.of_same_memory (t := 0) rfl rfl rfl hb hholds).1

theorem CountInv.solo_retarget (hc : CountInv L (Conc.solo g pc) m) {pc' : Pc k}
    (hp : pc'.pending L g = pc.pending L g) : CountInv L (Conc.solo g pc') m :=
  hc.solo_exec fun hi => ⟨hi, by rw [hp]⟩

theorem ListInv.runCall {c : Call k} {m₀ : Model k} {as : List Answer}
    (has : ∀ a ∈ as, a.KeepsBlock) (h : ListInv (Conc.solo g pc) nodes m)
    (htr : pc.Tracks c m₀ m) {g' : Globals k} {r : Ret} {rep : Option Report}
    (hrun : runCall L g pc as = some (g', r, rep)) :
    ∃ nodes', ListInv (Conc.solo g' (.done r rep)) nodes' (c.model m₀ r) ∧
      (CountInv L (Conc.solo g pc) m → CountInv L (Conc.solo g' (.done r rep)) (c.model m₀ r)) := by
  induction g, pc, as using runCall.induct L generalizing nodes m with
  | case1 as g r' rep' =>
    rw [runCall_done] at hrun
    obtain ⟨rfl, rfl, rfl⟩ : g = g' ∧ r' = r ∧ rep' = rep := by simpa using hrun
    exact ⟨nodes, htr ▸ h, fun hc => htr ▸ hc⟩
  | case2 g pc hpc => cases pc <;> first | exact absurd rfl (hpc _ _) | cases hrun
  | case3 g pc a as hpc ih =>
    have hret : ¬ pc.Returned := by cases pc <;> first | exact id | exact absurd rfl (hpc _ _)
    rw [runCall_cons L hret] at hrun
    obtain ⟨⟨g₁, pc₁⟩, hx, hrun⟩ := Option.bind_eq_some.mp hrun
    obtain ⟨hb, nodes₁, h₁⟩ := h.solo_exec (has a (List.mem_cons_self _ _)) hx
    obtain ⟨nodes', h', hc'⟩ := ih (g₁, pc₁) (fun a ha => has a (List.mem_cons_of_mem _ ha)) h₁
      (htr.exec hx) hrun
    exact ⟨nodes', h', fun hc => hc' (hc.solo_exec hb)⟩
end

theorem ListInv.seqRun {L : Layout} {g₀ g : Globals k} {nodes₀ : Fin k → List Ptr}
    {m₀ : Model k} {hist : List (Call k × Ret)}
    (h₀ : ListInv (Conc.idle g₀ : Conc 1 k) nodes₀ m₀)
    (hr : SeqRun L Answer.KeepsBlock g₀ g hist) :
    ∃ nodes, ListInv (Conc.idle g : Conc 1 k) nodes (m₀.ofCalls hist) ∧
      (CountInv L (Conc.idle g₀ : Conc 1 k) m₀ →
        CountInv L (Conc.idle g : Conc 1 k) (m₀.ofCalls hist)) := by
  induction hr with
  | start => exact ⟨nodes₀, h₀, id⟩
  | @call g g' hist c as r rep _ has hrun ih =>
    obtain ⟨nodes, h, hc⟩ := ih
    have h₁ : ListInv (Conc.solo g c.entry) nodes (m₀.ofCalls hist) :=
      ListInv.solo_retarget h (by rw [Call.entry_blocks]; rfl) (c.entry_holds _)
    obtain ⟨nodes', h', hc'⟩ := h₁.runCall has (h₁.entry_tracks c) hrun
    rw [Model.ofCalls_concat]
    exact ⟨nodes', h'.solo_retarget rfl trivial, fun hc₀ =>
      (hc' ((hc hc₀).solo_retarget (c.entry_pending L g))).solo_retarget rfl⟩

-- ---------------------------------------------------------------------------
-- The lists and the counter
-- ---------------------------------------------------------------------------

theorem CountInv.idle_total {n : Nat} {L : Layout} {g : Globals k} {m : Model k}
    (hc : CountInv L (Conc.idle g : Conc n k) m) : g.theTotalMemory = m.total L := by
  simpa [Conc.idle, Pc.pending] using hc.counter

/-- Single-threaded runs from empty lists, with an allocator that keeps a block on `NULL`:
the lists stay well formed, and `DYNMEM_dump` reads back from each list the entries of the
list model of the calls made, with what they returned. -/
theorem seqRun_lists (L : Layout) {g₀ g : Globals k} {hist : List (Call k × Ret)}
    (hheads : ∀ l, g₀.heads l = NULL) (hlive : g₀.live = ∅)
    (hr : SeqRun L Answer.KeepsBlock g₀ g hist) :
    ∃ nodes, WellFormed g nodes ∧ ∀ l,
      (DYNMEM_dump L g (g.heads l)).map (fun d => d.blocks.map MemoryTable.entry) =
        some (Model.empty.ofCalls hist l) := by
  obtain ⟨nodes, h, -⟩ := (ListInv.idle (n := 1) hheads hlive).seqRun hr
  exact ⟨nodes, h.wellFormed, h.dump_entries L⟩

def runCalls (L : Layout) (g : Globals k) :
    List (Call k × List Answer) → Option (Globals k × List (Call k × Ret))
  | [] => some (g, [])
  | (c, as) :: cs => (runCall L g c.entry as).bind fun r =>
    (runCalls L r.1 cs).map fun r' => (r'.1, (c, r.2.1) :: r'.2)

theorem SeqRun.runCalls {L : Layout} {allow : Answer → Prop} {g₀ g g' : Globals k}
    {hist hist' : List (Call k × Ret)} {cs : List (Call k × List Answer)}
    (has : ∀ c ∈ cs, ∀ a ∈ c.2, allow a) (h : SeqRun L allow g₀ g hist)
    (hrun : runCalls L g cs = some (g', hist')) : SeqRun L allow g₀ g' (hist ++ hist') := by
  induction cs generalizing g hist hist' with
  | nil =>
    obtain ⟨rfl, rfl⟩ : g = g' ∧ [] = hist' := by simpa [DynamicMemory.runCalls] using hrun
    simpa using h
  | cons c cs ih =>
    simp only [DynamicMemory.runCalls, Option.bind_eq_some, Option.map_eq_some'] at hrun
    obtain ⟨⟨g₁, r, rep⟩, hc, ⟨g₂, rest⟩, hcs, he⟩ := hrun
    obtain ⟨rfl, rfl⟩ := Prod.mk.inj he
    simpa using ih (fun c' hc' => has c' (List.mem_cons_of_mem _ hc'))
      (h.call (has c (List.mem_cons_self _ _)) hc) hcs

def sampleLayout : Layout := ⟨48, 20⟩

/-- After `DYNMEM_Init` and `DYNMEM_malloc(16, &list, "x")`, answered with blocks `1` and `2`. -/
def sampleState : Globals 1 :=
  ((runCall sampleLayout (DYNMEM_Init Globals.load) (Call.malloc 16 0 "x").entry
    [.block 1, .block 2, .null, .null]).getD (Globals.load, .void, none)).1

/-- Three blocks on list `0` and one on list `1`; then a `DYNMEM_free` of the middle block of
list `0`, a `DYNMEM_realloc` that grows its last block and moves it, and one that shrinks its
first block in place. -/
def sampleCalls : List (Call 2 × List Answer) :=
  [(.malloc 16 0 "a", [.block 1, .block 2, .null, .null]),
    (.malloc 32 0 "b", [.block 3, .block 4, .null, .null]),
    (.malloc 8 0 "c", [.block 5, .block 6, .null, .null]),
    (.malloc 24 1 "d", [.block 7, .block 8, .null, .null]),
    (.free 3 0, [.null, .null, .null, .null]),
    (.realloc 1 64 0, [.block 9, .null]),
    (.realloc 5 4 0, [.block 5, .null])]

def sampleRun : Globals 2 × List (Call 2 × Ret) :=
  (runCalls sampleLayout (DYNMEM_Init Globals.load) sampleCalls).getD (Globals.load, [])

theorem sampleRun_seqRun :
    SeqRun sampleLayout Answer.KeepsBlock (DYNMEM_Init Globals.load) sampleRun.1 sampleRun.2 :=
  SeqRun.runCalls (show ∀ c ∈ sampleCalls, ∀ a ∈ c.2, a.KeepsBlock by decide) .start rfl

theorem seqRun_lists_sample :
    (∀ l, (DYNMEM_Init Globals.load : Globals 2).heads l = NULL) ∧
      (DYNMEM_Init Globals.load : Globals 2).live = ∅ ∧
      SeqRun sampleLayout Answer.KeepsBlock (DYNMEM_Init Globals.load) sampleRun.1 sampleRun.2 ∧
      ∃ nodes, WellFormed sampleRun.1 nodes ∧ ∀ l,
        (DYNMEM_dump sampleLayout sampleRun.1 (sampleRun.1.heads l)).map
          (fun d => d.blocks.map MemoryTable.entry) =
        some (Model.empty.ofCalls sampleRun.2 l) :=
  ⟨fun _ => rfl, rfl, sampleRun_seqRun,
    seqRun_lists sampleLayout (fun _ => rfl) rfl sampleRun_seqRun⟩

/- Every call returned a block, and list `0` reads back with its middle entry gone, its last
entry moved to block `9` and grown, and its first entry shrunk in place. -/
example : sampleRun.2.map Prod.snd = [.ptr 1, .ptr 3, .ptr 5, .ptr 7, .void, .ptr 9, .ptr 5] ∧
    (DYNMEM_dump sampleLayout sampleRun.1 (sampleRun.1.heads 0)).map
      (fun d => d.blocks.map MemoryTable.entry) = some [(5, 4), (9, 64)] := by
  decide

/-- Single-threaded runs after `DYNMEM_Init`: the counter is the sum of what `DYNMEM_dump`
adds up over the lists, and a `DYNMEM_freeAll` of one list takes exactly that list's total off
the counter, which is then the sum over the other lists. -/
theorem seqRun_counter (L : Layout) {g : Globals k} {hist : List (Call k × Ret)}
    (hr : SeqRun L Answer.KeepsBlock (DYNMEM_Init Globals.load) g hist) :
    ∃ totals : Fin k → UInt64,
      (∀ l, (DYNMEM_dump L g (g.heads l)).map Dump.total = some (totals l)) ∧
      g.theTotalMemory = ∑ l, totals l ∧
      ∀ (head : Fin k) (as : List Answer) (g' : Globals k) (r : Ret) (rep : Option Report),
        (∀ a ∈ as, a.KeepsBlock) → runCall L g (Call.freeAll head).entry as = some (g', r, rep) →
        g'.theTotalMemory + totals head = g.theTotalMemory ∧
          g'.theTotalMemory = ∑ l ∈ Finset.univ.erase head, totals l := by
  have h₀ := ListInv.initLoad (n := 1) (k := k)
  have hc₀ := CountInv.initLoad (n := 1) (k := k) L
  obtain ⟨nodes, h, hc⟩ := h₀.seqRun hr
  have hT := (hc hc₀).idle_total
  refine ⟨fun l => entriesTotal L (Model.empty.ofCalls hist l), h.dump_total L, hT, ?_⟩
  intro head as g' r rep has hrun
  obtain ⟨-, -, hc'⟩ := h₀.seqRun (hr.call has hrun)
  have hT' := (hc' hc₀).idle_total
  rw [Model.ofCalls_concat] at hT'
  have hclear := Model.total_clear L (Model.empty.ofCalls hist) head
  refine ⟨by rw [hT', hT]; exact hclear, ?_⟩
  rw [hT', Model.total, ← Finset.add_sum_erase _ _ (Finset.mem_univ head)]
  simp only [Call.model, Op.apply, Function.update_same, entriesTotal_nil, zero_add]
  exact Finset.sum_congr rfl fun l hl => by rw [Function.update_noteq (Finset.ne_of_mem_erase hl)]

theorem seqRun_counter_sample :
    SeqRun sampleLayout Answer.KeepsBlock (DYNMEM_Init Globals.load) sampleRun.1 sampleRun.2 ∧
      ∃ totals : Fin 2 → UInt64,
        (∀ l, (DYNMEM_dump sampleLayout sampleRun.1 (sampleRun.1.heads l)).map Dump.total =
          some (totals l)) ∧
        sampleRun.1.theTotalMemory = ∑ l, totals l ∧
        ∀ (head : Fin 2) (as : List Answer) (g' : Globals 2) (r : Ret) (rep : Option Report),
          (∀ a ∈ as, a.KeepsBlock) →
          runCall sampleLayout sampleRun.1 (Call.freeAll head).entry as = some (g', r, rep) →
          g'.theTotalMemory + totals head = sampleRun.1.theTotalMemory ∧
            g'.theTotalMemory = ∑ l ∈ Finset.univ.erase head, totals l :=
  ⟨sampleRun_seqRun, seqRun_counter sampleLayout sampleRun_seqRun⟩

/- The two lists hold `4 + 48 + 64 + 48` and `24 + 48` bytes. -/
example : sampleRun.1.theTotalMemory = 236 := by decide

-- ---------------------------------------------------------------------------
-- `realloc(p, 0)` with glibc
-- ---------------------------------------------------------------------------

/-- `sampleState` after `DYNMEM_realloc(1, 0, &list)`, which glibc answers by releasing `1`
and returning `NULL`. -/
def reallocZeroState : Globals 1 :=
  ((runCall sampleLayout sampleState (Call.realloc 1 0 0).entry [.nullFreeing]).getD
    (Globals.load, .void, none)).1

/-- With glibc's `realloc(p, 0)`, `DYNMEM_realloc(1, 0)` reports that it is out of memory and
returns `NULL`, as if block `1` were still valid; but the allocator has released it, while the
list still tracks it. The `DYNMEM_free(1)` that follows then frees the released block again:
the run has no defined outcome, whatever the allocator answers. -/
theorem realloc_zero_double_free :
    runCall sampleLayout sampleState (Call.realloc 1 0 0).entry [.nullFreeing] =
        some (reallocZeroState, .ptr NULL,
          some ⟨"Memory reallocation error, out of memory.", 0⟩) ∧
      1 ∉ reallocZeroState.live ∧
      (DYNMEM_dump sampleLayout reallocZeroState (reallocZeroState.heads 0)).map
        (fun d => d.blocks.map MemoryTable.entry) = some [(1, 16)] ∧
      ∀ as, runCall sampleLayout reallocZeroState (Call.free 1 0).entry as = none := by
  refine ⟨rfl, by decide, rfl, fun as => ?_⟩
  rcases as with _ | ⟨_, _ | ⟨_, _ | ⟨_, _⟩⟩⟩ <;> rfl

end DynamicMemory
