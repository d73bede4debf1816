import DynamicMemory.Concurrent

/-!
# No step goes wrong

In the model a step is `none` exactly where the C code has undefined behaviour: it frees a
block that is not live (a double or wild free), reads a record that is not there, or walks a
list that does not end. From the module right after `DYNMEM_Init`, with an allocator that keeps
the block on `NULL`, no interleaving reaches such a step: every thread in the middle of a call
takes its next step, whatever the allocator answers (`reach_progress`); and each step brings
the call closer to its return, so that a thread returns from its call within four steps of its
own, whatever the other threads do (`reach_returns`).

Nothing leaks either. After a single-threaded run every live block is a record of one list or
the block such a record tracks, and only one of these, and `DYNMEM_freeAll` releases exactly
the records of its list and their blocks (`seqRun_live`).

`DYNMEM_free` and `DYNMEM_realloc` report an address as not previously allocated exactly when
the list model has no entry for it at their critical section (`reach_untracked`).
-/

namespace DynamicMemory

variable {n k : Nat}

-- ---------------------------------------------------------------------------
-- Every step can be taken
-- ---------------------------------------------------------------------------

section
variable {s : Conc n k} {nodes : Fin k → List Ptr} {m : Model k} (h : ListInv s nodes m)
include h

theorem ListInv.malloc_isSome (L : Layout) {t : Fin n} {bytes : UInt64} {head : Fin k}
    {theName : String} {st : MallocStage} (ht : s.th t = .malloc bytes head theName st)
    (a : Answer) : (DYNMEM_malloc L bytes head theName s.g a st).isSome := by
  cases st with
  | calloc | item => simp only [DYNMEM_malloc]; split <;> rfl
  | rollback memory =>
    have hmem : memory ∈ (s.th t).blocks s.g := by simp [ht, Pc.blocks]
    simp [DYNMEM_malloc, h.release_of_live (h.live_of_thread hmem)]
  | link memory newItem =>
    obtain ⟨_, _, -, -, hpush, -⟩ := h.pushFront ht
    simp [DYNMEM_malloc, hpush]
  | count => rfl

theorem ListInv.realloc_isSome (p : Ptr) (bytes : UInt64) (head : Fin k) (st : ReallocStage)
    {a : Answer} (ha : a.KeepsBlock) : (DYNMEM_realloc p bytes head s.g a st).isSome := by
  cases st with
  | count => rfl
  | listSection =>
    rcases hfind : (nodes head).find? (fun n => s.g.addressOf n = p) with _ | f
    · simp [DYNMEM_realloc, h.findAddress head p, hfind]
    · obtain ⟨pre, post, e, hsplit, -, hfp, he, hfn, hplive⟩ := h.find?_some hfind
      have hfmem : f ∈ nodes head := by simp [hsplit]
      have hpn : p ≠ NULL := fun h' => h.null (h' ▸ hplive)
      simp only [DYNMEM_realloc, h.findAddress head p, hfind, Option.getD_some, hfn, if_false,
        Option.bind_eq_bind, Option.some_bind]
      rcases sysRealloc_cases hplive bytes ha with hr | hr | ⟨q, -, hq, hr⟩
      · simp [hr]
      · simp [hr, hpn, he, Globals.modify_of_some he]
      · have he₁ : (s.g.move p q).records f = some e := by
          rw [Globals.move_records hq (h.live_of_list (mem_blocksOf_self hfmem))
            (hfp ▸ Globals.ne_addressOf (h.nodup_list head) hfmem hfmem), he]
        simp [hr, hq.1, he₁, Globals.modify_of_some he₁]

theorem ListInv.free_isSome (L : Layout) {t : Fin n} {p : Ptr} {head : Fin k} {st : FreeStage}
    (ht : s.th t = .free p head st) : (DYNMEM_free L p head s.g st).isSome := by
  have hholds := h.holds t
  rw [ht] at hholds
  cases st with
  | listSection =>
    rcases hfind : (nodes head).find? (fun n => s.g.addressOf n = p) with _ | f
    · simp [DYNMEM_free, h.findAddress head p, hfind]
    · obtain ⟨pre, post, -, hsplit, -, -, -, hfn, -⟩ := h.find?_some hfind
      obtain ⟨_, _, hun, -⟩ := unlink_seg (hsplit ▸ h.seg head) (hsplit ▸ h.nodup head)
      simp [DYNMEM_free, h.findAddress head p, hfind, hfn, hun]
  | count found =>
    obtain ⟨e, he⟩ := Option.isSome_iff_exists.mp hholds
    simp [DYNMEM_free, he]
  | address found =>
    obtain ⟨e, he⟩ := Option.isSome_iff_exists.mp hholds
    have hmem : e.address ∈ (s.th t).blocks s.g := by
      simp [ht, Pc.blocks, Globals.addressOf, he]
    simp [DYNMEM_free, he, h.release_of_live (h.live_of_thread hmem)]
  | record found =>
    have hmem : found ∈ (s.th t).blocks s.g := by simp [ht, Pc.blocks]
    simp [DYNMEM_free, h.release_of_live (h.live_of_thread hmem)]

theorem ListInv.freeAll_isSome (L : Layout) (head : Fin k) (st : FreeAllStage) :
    (DYNMEM_freeAll L head s.g st).isSome := by
  cases st with
  | listSection => simp [DYNMEM_freeAll, h.freeAllLoop L head]
  | count => rfl

theorem ListInv.exec_isSome (L : Layout) {t : Fin n} (hr : ¬ (s.th t).Returned) {a : Answer}
    (ha : a.KeepsBlock) : ((s.th t).exec L s.g a).isSome := by
  cases ht : s.th t with
  | done => rw [ht] at hr; exact absurd trivial hr
  | init | getTotalMemory => rfl
  | malloc bytes head theName st => exact h.malloc_isSome L ht a
  | realloc p bytes head st => exact h.realloc_isSome p bytes head st ha
  | free p head st => exact h.free_isSome L ht
  | freeAll head st => exact h.freeAll_isSome L head st

end

/-- No interleaving goes wrong. From the module right after `DYNMEM_Init`, with an allocator
that keeps the block on `NULL`, every thread in the middle of a call takes its next step
whatever the allocator answers: no call frees a block that is not live, reads a record that is
not there, or walks a list without end. -/
theorem reach_progress (L : Layout) {s : Conc n k} {ops : List (Op k)}
    (hr : Reach L Answer.KeepsBlock (Conc.idle (DYNMEM_Init Globals.load)) s ops) {t : Fin n}
    (ht : ¬ (s.th t).Returned) {a : Answer} (ha : a.KeepsBlock) :
    ∃ g' pc', (s.th t).exec L s.g a = some (g', pc') := by
  obtain ⟨_, h⟩ := ListInv.initLoad.reach hr
  obtain ⟨⟨g', pc'⟩, hx⟩ := Option.isSome_iff_exists.mp (h.exec_isSome L ht ha)
  exact ⟨g', pc', hx⟩

theorem reach_progress_race :
    Reach sampleLayout Answer.KeepsBlock (Conc.idle (DYNMEM_Init Globals.load)) raceRun.1
        raceRun.2 ∧
      ¬ (raceRun.1.th 1).Returned ∧ Answer.null.KeepsBlock ∧
      ∃ g' pc', (raceRun.1.th 1).exec sampleLayout raceRun.1.g .null = some (g', pc') :=
  ⟨raceRun_reach, by decide, by decide,
    reach_progress sampleLayout raceRun_reach (by decide) (by decide)⟩

-- ---------------------------------------------------------------------------
-- Every call returns
-- ---------------------------------------------------------------------------

/-- At most how many more steps the call at `pc` takes before it returns. -/
def Pc.steps : Pc k → Nat
  | .done _ _ => 0
  | .init | .getTotalMemory => 1
  | .malloc _ _ _ .calloc => 4
  | .malloc _ _ _ (.item _) => 3
  | .malloc _ _ _ (.link _ _) => 2
  | .malloc _ _ _ (.rollback _) | .malloc _ _ _ (.count _) => 1
  | .realloc _ _ _ .listSection => 2
  | .realloc _ _ _ (.count _ _) => 1
  | .free _ _ .listSection => 4
  | .free _ _ (.count _) => 3
  | .free _ _ (.address _) => 2
  | .free _ _ (.record _) => 1
  | .freeAll _ .listSection => 2
  | .freeAll _ (.count _) => 1

theorem Pc.steps_le_four (pc : Pc k) : pc.steps ≤ 4 := by
  rcases pc with _ | _ | _ | ⟨_, _, _, _ | _ | _ | _ | _⟩ | ⟨_, _, _, _ | _⟩ |
    ⟨_, _, _ | _ | _ | _⟩ | ⟨_, _ | _⟩ <;> simp [Pc.steps]

theorem Pc.returned_of_steps {pc : Pc k} (h : pc.steps = 0) : pc.Returned := by
  rcases pc with _ | _ | _ | ⟨_, _, _, _ | _ | _ | _ | _⟩ | ⟨_, _, _, _ | _⟩ |
    ⟨_, _, _ | _ | _ | _⟩ | ⟨_, _ | _⟩ <;> trivial

theorem Pc.steps_exec {L : Layout} {g g' : Globals k} {a : Answer} {pc pc' : Pc k}
    (hx : pc.exec L g a = some (g', pc')) : pc'.steps < pc.steps := by
  cases Pc.exec_next hx <;> simp [Pc.steps]

theorem runCall_isSome (L : Layout) (t : Fin n) {as : List Answer}
    (has : ∀ a ∈ as, a.KeepsBlock) {s : Conc n k} {nodes : Fin k → List Ptr} {m : Model k}
    (h : ListInv s nodes m) (hlen : (s.th t).steps ≤ as.length) :
    (runCall L s.g (s.th t) as).isSome := by
  induction as generalizing s nodes m with
  | nil =>
    have hr := Pc.returned_of_steps (Nat.le_zero.mp hlen)
    cases hpc : s.th t <;> rw [hpc] at hr <;> first | exact absurd hr id | rfl
  | cons a as ih =>
    by_cases hr : (s.th t).Returned
    · cases hpc : s.th t <;> rw [hpc] at hr <;> first | exact absurd hr id | rfl
    have ha := has a (List.mem_cons_self _ _)
    obtain ⟨⟨g', pc'⟩, hx⟩ := Option.isSome_iff_exists.mp (h.exec_isSome L hr ha)
    obtain ⟨-, nodes', h', -⟩ := h.exec L ha hx
    have hlt := Pc.steps_exec hx
    rw [runCall_cons L hr, hx, Option.some_bind]
    simpa using ih (fun a ha => has a (List.mem_cons_of_mem _ ha)) h'
      (by simp only [Function.update_same, List.length_cons] at hlen ⊢; omega)

/-- Every call returns. In every state of every interleaving from the module right after
`DYNMEM_Init`, with an allocator that keeps the block on `NULL`, a thread run from where it
stands returns from its call within four steps, whatever the allocator answers: no step waits
for another thread, since no lock is held from one step to the next. -/
theorem reach_returns (L : Layout) {s : Conc n k} {ops : List (Op k)}
    (hr : Reach L Answer.KeepsBlock (Conc.idle (DYNMEM_Init Globals.load)) s ops) (t : Fin n)
    {as : List Answer} (has : ∀ a ∈ as, a.KeepsBlock) (hlen : 4 ≤ as.length) :
    ∃ g' r rep, runCall L s.g (s.th t) as = some (g', r, rep) := by
  obtain ⟨_, h⟩ := ListInv.initLoad.reach hr
  obtain ⟨⟨g', r, rep⟩, hrun⟩ := Option.isSome_iff_exists.mp
    (runCall_isSome L t has h ((Pc.steps_le_four _).trans hlen))
  exact ⟨g', r, rep, hrun⟩

theorem reach_returns_race :
    Reach sampleLayout Answer.KeepsBlock (Conc.idle (DYNMEM_Init Globals.load)) raceRun.1
        raceRun.2 ∧
      (∀ a ∈ [Answer.null, .null, .null, .null], a.KeepsBlock) ∧
      4 ≤ [Answer.null, .null, .null, .null].length ∧
      ∃ g' r rep, runCall sampleLayout raceRun.1.g (raceRun.1.th 1)
        [.null, .null, .null, .null] = some (g', r, rep) :=
  ⟨raceRun_reach, by decide, by decide,
    reach_returns sampleLayout raceRun_reach 1 (by decide) (by decide)⟩

-- ---------------------------------------------------------------------------
-- Nothing leaks
-- ---------------------------------------------------------------------------

/-- Single-threaded runs after `DYNMEM_Init`, with an allocator that keeps a block on `NULL`:
every live block is a record of one list or the block such a record tracks, and only one of
these; and a `DYNMEM_freeAll` of a list releases exactly its records and their blocks, so that
what stays live is the other lists'. -/
theorem seqRun_live (L : Layout) {g : Globals k} {hist : List (Call k × Ret)}
    (hr : SeqRun L Answer.KeepsBlock (DYNMEM_Init Globals.load) g hist) :
    ∃ nodes, WellFormed g nodes ∧ g.live.val = ∑ l, (g.blocksOf (nodes l) : Multiset Ptr) ∧
      ∀ (head : Fin k) (as : List Answer) (g' : Globals k) (r : Ret) (rep : Option Report),
        runCall L g (Call.freeAll head).entry as = some (g', r, rep) →
        g'.live.val = ∑ l ∈ Finset.univ.erase head, (g.blocksOf (nodes l) : Multiset Ptr) := by
  obtain ⟨nodes, h, -⟩ := (ListInv.initLoad (n := 1)).seqRun hr
  have hlive : g.live.val = ∑ l, (g.blocksOf (nodes l) : Multiset Ptr) := by
    simpa [Conc.accounted, Conc.idle, Pc.blocks] using h.accounts
  refine ⟨nodes, h.wellFormed, hlive, fun head as g' r rep hrun => ?_⟩
  have hloop : freeAllLoop L g.walkFuel g (g.heads head) 0 =
      some (g.releaseAll (g.blocksOf (nodes head)), g.weight L (nodes head)) := h.freeAllLoop L head
  -- the critical section, then the counter update, each with an answer it ignores
  have hg' : g'.live = (g.releaseAll (g.blocksOf (nodes head))).live := by
    rcases as with _ | ⟨a, _ | ⟨a', as⟩⟩ <;>
      simp only [runCall, Call.entry, Pc.exec, DYNMEM_freeAll, hloop, Option.bind_eq_bind,
        Option.some_bind] at hrun
    · cases hrun
    · cases hrun
    · split at hrun <;> cases hrun <;> rfl
  have hrel : (g.releaseAll (g.blocksOf (nodes head))).live.val + g.blocksOf (nodes head) =
      g.live.val := Globals.releaseAll_live_val (h.nodup_list head) fun _ => h.live_of_list
  rw [hlive, ← Finset.add_sum_erase _ _ (Finset.mem_univ head), ← hg', add_comm] at hrel
  exact add_left_cancel hrel

theorem seqRun_live_sample :
    SeqRun sampleLayout Answer.KeepsBlock (DYNMEM_Init Globals.load) sampleRun.1 sampleRun.2 ∧
      ∃ nodes, WellFormed sampleRun.1 nodes ∧
        sampleRun.1.live.val = ∑ l, (sampleRun.1.blocksOf (nodes l) : Multiset Ptr) ∧
        ∀ (head : Fin 2) (as : List Answer) (g' : Globals 2) (r : Ret) (rep : Option Report),
          runCall sampleLayout sampleRun.1 (Call.freeAll head).entry as = some (g', r, rep) →
          g'.live.val =
            ∑ l ∈ Finset.univ.erase head, (sampleRun.1.blocksOf (nodes l) : Multiset Ptr) :=
  ⟨sampleRun_seqRun, seqRun_live sampleLayout sampleRun_seqRun⟩

-- ---------------------------------------------------------------------------
-- Addresses not previously allocated
-- ---------------------------------------------------------------------------

section
variable {s : Conc n k} {nodes : Fin k → List Ptr} {m : Model k} (h : ListInv s nodes m)
include h

theorem ListInv.free_untracked (L : Layout) (p : Ptr) (head : Fin k) :
    DYNMEM_free L p head s.g .listSection =
        some (s.g, .done .void (some ⟨"Unable to free memory not previously allocated", 1⟩)) ↔
      ∀ x ∈ m head, x.1 ≠ p := by
  rw [← h.find?_eq_none_iff]
  rcases hfind : (nodes head).find? (fun n => s.g.addressOf n = p) with _ | f
  · simp [DYNMEM_free, h.findAddress head p, hfind]
  · obtain ⟨pre, post, -, hsplit, -, -, -, hfn, -⟩ := h.find?_some hfind
    obtain ⟨_, _, hun, -⟩ := unlink_seg (hsplit ▸ h.seg head) (hsplit ▸ h.nodup head)
    simp [DYNMEM_free, h.findAddress head p, hfind, hfn, hun]

theorem ListInv.realloc_untracked (p : Ptr) (bytes : UInt64) (head : Fin k) (a : Answer) :
    DYNMEM_realloc p bytes head s.g a .listSection = some (s.g, .done (.ptr NULL)
        (some ⟨"Unable to reallocate memory not previously allocated", 0⟩)) ↔
      ∀ x ∈ m head, x.1 ≠ p := by
  rw [← h.find?_eq_none_iff]
  rcases hfind : (nodes head).find? (fun n => s.g.addressOf n = p) with _ | f
  · simp [DYNMEM_realloc, h.findAddress head p, hfind]
  · obtain ⟨-, -, -, -, -, -, -, hfn, -⟩ := h.find?_some hfind
    simp only [DYNMEM_realloc, h.findAddress head p, hfind, Option.getD_some, hfn, if_false,
      Option.bind_eq_bind, Option.some_bind, reduceCtorEq, iff_false]
    intro hx
    obtain ⟨⟨g₁, q⟩, -, hx⟩ := Option.bind_eq_some.mp hx
    split_ifs at hx
    · simp [Option.bind_eq_some] at hx
    · simp at hx
end

/-- `DYNMEM_free` and `DYNMEM_realloc` report an address as not previously allocated exactly
when, at their critical section, the list model holds no entry for it; the report then changes
nothing. This holds in every state of every interleaving from the module right after
`DYNMEM_Init`. -/
theorem reach_untracked (L : Layout) {s : Conc n k} {ops : List (Op k)}
    (hr : Reach L Answer.KeepsBlock (Conc.idle (DYNMEM_Init Globals.load)) s ops) (p : Ptr)
    (head : Fin k) (bytes : UInt64) (a : Answer) :
    (DYNMEM_free L p head s.g .listSection =
        some (s.g, .done .void (some ⟨"Unable to free memory not previously allocated", 1⟩)) ↔
      ∀ x ∈ Model.empty.applyAll ops head, x.1 ≠ p) ∧
    (DYNMEM_realloc p bytes head s.g a .listSection = some (s.g, .done (.ptr NULL)
        (some ⟨"Unable to reallocate memory not previously allocated", 0⟩)) ↔
      ∀ x ∈ Model.empty.applyAll ops head, x.1 ≠ p) := by
  obtain ⟨_, h⟩ := ListInv.initLoad.reach hr
  exact ⟨h.free_untracked L p head, h.realloc_untracked p bytes head a⟩

theorem reach_untracked_twoLists :
    Reach sampleLayout Answer.KeepsBlock (Conc.idle (DYNMEM_Init Globals.load)) twoListsRun.1
        twoListsRun.2 ∧
      (DYNMEM_free sampleLayout 1 0 twoListsRun.1.g .listSection = some (twoListsRun.1.g,
          .done .void (some ⟨"Unable to free memory not previously allocated", 1⟩)) ↔
        ∀ x ∈ Model.empty.applyAll twoListsRun.2 0, x.1 ≠ 1) ∧
      (DYNMEM_realloc 1 0 0 twoListsRun.1.g .null .listSection = some (twoListsRun.1.g,
          .done (.ptr NULL) (some ⟨"Unable to reallocate memory not previously allocated", 0⟩)) ↔
        ∀ x ∈ Model.empty.applyAll twoListsRun.2 0, x.1 ≠ 1) :=
  ⟨twoListsRun_reach, reach_untracked sampleLayout twoListsRun_reach 1 0 0 .null⟩

/- Block `1` was freed, while its list still tracks block `5`. -/
example : Model.empty.applyAll twoListsRun.2 0 = [(5, 8)] := by decide

end DynamicMemory
