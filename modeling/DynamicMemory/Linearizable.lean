import DynamicMemory.Safety

/-!
# Every run is linearizable

All lists are guarded by one mutex, so a call changes them in one atomic step, its critical
section. This file shows that every interleaving then looks like a single-threaded run. A run is
traced with the events its threads show: a call, the step where the call takes effect together
with the value it will return (its linearization point), and its return.

* Each thread's events come in that order, so a call takes effect between its call and its
  return.
* The calls, in the order they take effect, form a run of the list model in which each call
  returns what it may there (`Model.Legal`).
* The lists the module holds, and its counter once every thread has returned, are those of that
  run.

Two consequences follow. No block is ever tracked twice, since the list model keeps that for
every call that returns what it may. And in single-threaded use, which is a traced run of one
thread, every call returns what the list model allows.
-/
namespace DynamicMemory

variable {n k : Nat}

-- ---------------------------------------------------------------------------
-- A moved block
-- ---------------------------------------------------------------------------

theorem sysRealloc_ptr {g g₁ : Globals k} {p q : Ptr} {bytes : UInt64} {a : Answer}
    (hr : sysRealloc g p bytes a = some (g₁, q)) (hq : q ≠ NULL) : q = p ∨ g.Fresh q := by
  cases a <;> simp only [sysRealloc] at hr <;> split_ifs at hr <;> simp_all

theorem DYNMEM_realloc_moved {p p' : Ptr} {bytes bytes' : UInt64} {head head' : Fin k}
    {g g' : Globals k} {a : Answer} {oldSize : UInt64} {q : Ptr}
    (hx : DYNMEM_realloc p bytes head g a .listSection =
      some (g', .realloc p' bytes' head' (.count oldSize q))) :
    findAddress g p g.walkFuel (g.heads head) ≠ some NULL ∧ (q = p ∨ g.Fresh q) := by
  simp only [DYNMEM_realloc, Option.bind_eq_bind, Option.bind_eq_some] at hx
  obtain ⟨found, hf, hx⟩ := hx
  split_ifs at hx with hfound
  · cases hx
  obtain ⟨⟨g₁, q₁⟩, hr, hx⟩ := Option.bind_eq_some.mp hx
  split_ifs at hx with hq₁
  · obtain ⟨_, -, _, -, hx⟩ := by simpa only [Option.bind_eq_some] using hx
    cases (Prod.mk.inj (Option.some.inj hx)).2
    exact ⟨fun h => hfound (Option.some.inj (hf.symm.trans h)), sysRealloc_ptr hr hq₁⟩
  · cases hx

-- ---------------------------------------------------------------------------
-- Where a call stands
-- ---------------------------------------------------------------------------

def Pc.response : Pc k → Option Ret
  | .done r _ => some r
  | .malloc _ _ _ (.count memory) => some (.ptr memory)
  | .realloc _ _ _ (.count _ q) => some (.ptr q)
  | .free _ _ (.count _) | .free _ _ (.address _) | .free _ _ (.record _) => some .void
  | .freeAll _ (.count _) => some .void
  | _ => none

/-- The value a step from `pc` to `pc'` decides the call returns, when the call takes effect at
that step. -/
def Pc.decides (pc pc' : Pc k) : Option Ret :=
  match pc.response with
  | none => pc'.response
  | some _ => none

theorem Pc.response_exec {L : Layout} {g g' : Globals k} {a : Answer} {pc pc' : Pc k}
    (hx : pc.exec L g a = some (g', pc')) {r : Ret} (hr : pc.response = some r) :
    pc'.response = some r := by
  cases Pc.exec_next hx <;> simp_all [Pc.response]

/-- The thread at `pc` is inside the call `c`; `DYNMEM_realloc(NULL, n)` runs as the
`DYNMEM_malloc` it calls. -/
def Call.Runs (c : Call k) : Pc k → Prop
  | .done _ _ => True
  | .init => c = .init
  | .getTotalMemory => c = .getTotalMemory
  | .malloc bytes head theName _ =>
    c = .malloc bytes head theName ∨ c = .realloc NULL bytes head ∧ theName = "Realloc"
  | .realloc p bytes head _ => c = .realloc p bytes head
  | .free p head _ => c = .free p head
  | .freeAll head _ => c = .freeAll head

theorem Call.runs_entry (c : Call k) : c.Runs c.entry := by
  cases c with
  | realloc p bytes head => by_cases hp : p = NULL <;> simp [Call.entry, Call.Runs, hp]
  | free p head => by_cases hp : p = NULL <;> simp [Call.entry, Call.Runs, hp]
  | _ => simp [Call.entry, Call.Runs]

theorem Call.Runs.exec {c : Call k} {L : Layout} {g g' : Globals k} {a : Answer} {pc pc' : Pc k}
    (hc : c.Runs pc) (hx : pc.exec L g a = some (g', pc')) : c.Runs pc' := by
  cases Pc.exec_next hx <;> trivial

-- ---------------------------------------------------------------------------
-- Traces
-- ---------------------------------------------------------------------------

/-- What a thread shows of a call: the call, the step where it takes effect with the value it
returns, and its return. -/
inductive Event (n k : Nat)
  | inv (t : Fin n) (c : Call k)
  | lin (t : Fin n) (c : Call k) (r : Ret)
  | res (t : Fin n) (r : Ret)
  deriving DecidableEq, Repr

def Event.thread : Event n k → Fin n
  | .inv t _ | .lin t _ _ | .res t _ => t

def Event.lins (tr : List (Event n k)) : List (Call k × Ret) :=
  tr.filterMap fun
    | .lin _ c r => some (c, r)
    | _ => none

@[simp] theorem Event.lins_append (tr tr' : List (Event n k)) :
    Event.lins (tr ++ tr') = Event.lins tr ++ Event.lins tr' :=
  List.filterMap_append ..

/-- Where a thread stands between its calls. -/
inductive Phase (k : Nat)
  | idle
  | invoked (c : Call k)
  | decided (c : Call k) (r : Ret)
  deriving DecidableEq, Repr

def Phase.next : Phase k → Event n k → Option (Phase k)
  | .idle, .inv _ c => some (.invoked c)
  | .invoked c, .lin _ c' r => if c' = c then some (.decided c r) else none
  | .decided _ r, .res _ r' => if r' = r then some .idle else none
  | _, _ => none

def Event.phase (t : Fin n) (tr : List (Event n k)) : Option (Phase k) :=
  (tr.filter fun e => e.thread = t).foldlM Phase.next .idle

def Pc.phase (c : Call k) (pc : Pc k) : Phase k :=
  match pc with
  | .done _ _ => .idle
  | _ => (pc.response.map (.decided c)).getD (.invoked c)

def Event.arrive (t : Fin n) (c : Call k) (decided : Option Ret) (pc : Pc k) : List (Event n k) :=
  (decided.map (.lin t c)).toList ++
    match pc with
    | .done r _ => [.res t r]
    | _ => []

def Event.onCall (t : Fin n) (c : Call k) : List (Event n k) :=
  .inv t c :: Event.arrive t c c.entry.response c.entry

def Event.onStep (t : Fin n) (c : Call k) (pc pc' : Pc k) : List (Event n k) :=
  Event.arrive t c (pc.decides pc') pc'

/-- The runs of the system, as `Step` makes them, with the events the threads show; `calls t`
is the call thread `t` made last. -/
inductive Traced (L : Layout) (allow : Answer → Prop) (s₀ : Conc n k) :
    Conc n k → (Fin n → Call k) → List (Event n k) → Prop
  | start (calls : Fin n → Call k) : Traced L allow s₀ s₀ calls []
  | call {s : Conc n k} {calls : Fin n → Call k} {tr : List (Event n k)} (t : Fin n)
      (c : Call k) :
      Traced L allow s₀ s calls tr → (s.th t).Returned →
      Traced L allow s₀ ⟨s.g, Function.update s.th t c.entry⟩ (Function.update calls t c)
        (tr ++ Event.onCall t c)
  | exec {s : Conc n k} {calls : Fin n → Call k} {tr : List (Event n k)} {g' : Globals k}
      {pc' : Pc k} (t : Fin n) (a : Answer) :
      Traced L allow s₀ s calls tr → allow a → (s.th t).exec L s.g a = some (g', pc') →
      Traced L allow s₀ ⟨g', Function.update s.th t pc'⟩ calls
        (tr ++ Event.onStep t (calls t) (s.th t) pc')

section
variable {L : Layout} {allow : Answer → Prop} {s₀ s : Conc n k}

theorem Traced.reach {calls : Fin n → Call k} {tr : List (Event n k)}
    (hr : Traced L allow s₀ s calls tr) : ∃ ops, Reach L allow s₀ s ops := by
  induction hr with
  | start => exact ⟨[], .start⟩
  | call t c _ hret ih =>
    obtain ⟨ops, h⟩ := ih
    exact ⟨_, h.step (.call t c hret)⟩
  | exec t a _ ha hx ih =>
    obtain ⟨ops, h⟩ := ih
    exact ⟨_, h.step (.exec t a ha hx)⟩

theorem Reach.traced {ops : List (Op k)} (hr : Reach L allow s₀ s ops)
    (calls₀ : Fin n → Call k) : ∃ calls tr, Traced L allow s₀ s calls tr := by
  induction hr with
  | start => exact ⟨calls₀, [], .start calls₀⟩
  | step _ hs ih =>
    obtain ⟨calls, tr, h⟩ := ih
    cases hs with
    | call t c hret => exact ⟨_, _, h.call t c hret⟩
    | exec t a ha hx => exact ⟨_, _, h.exec t a ha hx⟩

end

def Conc.schedTraced (L : Layout) (s : Conc n k) (calls : Fin n → Call k) :
    Sched n k → Option (Conc n k × (Fin n → Call k) × List (Event n k))
  | .call t c =>
    if (s.th t).Returned then
      some (⟨s.g, Function.update s.th t c.entry⟩, Function.update calls t c, Event.onCall t c)
    else none
  | .exec t a => ((s.th t).exec L s.g a).map fun r =>
    (⟨r.1, Function.update s.th t r.2⟩, calls, Event.onStep t (calls t) (s.th t) r.2)

def Conc.runTraced (L : Layout) (s : Conc n k) (calls : Fin n → Call k) :
    List (Sched n k) → Option (Conc n k × (Fin n → Call k) × List (Event n k))
  | [] => some (s, calls, [])
  | σ :: σs => (s.schedTraced L calls σ).bind fun r =>
    (r.1.runTraced L r.2.1 σs).map fun r' => (r'.1, r'.2.1, r.2.2 ++ r'.2.2)

theorem Traced.runTraced {L : Layout} {allow : Answer → Prop} {s₀ s s' : Conc n k}
    {calls calls' : Fin n → Call k} {tr tr' : List (Event n k)} {σs : List (Sched n k)}
    (h₀ : Traced L allow s₀ s calls tr) (hσ : ∀ a ∈ Sched.answers σs, allow a)
    (h : s.runTraced L calls σs = some (s', calls', tr')) :
    Traced L allow s₀ s' calls' (tr ++ tr') := by
  induction σs generalizing s calls tr tr' with
  | nil =>
    obtain ⟨rfl, rfl, rfl⟩ : s = s' ∧ calls = calls' ∧ [] = tr' := by
      simpa [Conc.runTraced] using h
    simpa using h₀
  | cons σ σs ih =>
    simp only [Conc.runTraced, Option.bind_eq_some, Option.map_eq_some'] at h
    obtain ⟨⟨s₁, calls₁, tr₁⟩, h₁, ⟨s₂, calls₂, tr₂⟩, h₂, hr⟩ := h
    cases hr
    rw [← List.append_assoc]
    cases σ with
    | call t c =>
      simp only [Conc.schedTraced] at h₁
      split at h₁
      · cases h₁; exact ih (h₀.call t c ‹_›) hσ h₂
      · cases h₁
    | exec t a =>
      simp only [Conc.schedTraced, Option.map_eq_some'] at h₁
      obtain ⟨⟨g', pc'⟩, hx, hr⟩ := h₁
      cases hr
      exact ih (h₀.exec t a (hσ a (List.mem_cons_self _ _)) hx)
        (fun a' ha' => hσ a' (List.mem_cons_of_mem _ ha')) h₂

-- ---------------------------------------------------------------------------
-- The events of one step
-- ---------------------------------------------------------------------------

theorem Event.lins_arrive (t : Fin n) (c : Call k) (o : Option Ret) (pc : Pc k) :
    Event.lins (Event.arrive t c o pc) = (o.map (Prod.mk c)).toList := by
  cases o <;> cases pc <;> rfl

theorem Event.lins_onCall (t : Fin n) (c : Call k) :
    Event.lins (Event.onCall t c) = (c.entry.response.map (Prod.mk c)).toList :=
  Event.lins_arrive t c _ _

theorem Event.thread_arrive {t : Fin n} {c : Call k} {o : Option Ret} {pc : Pc k} :
    ∀ e ∈ Event.arrive t c o pc, e.thread = t := by
  cases o <;> cases pc <;> simp [Event.arrive, Event.thread]

theorem Event.thread_onCall {t : Fin n} {c : Call k} : ∀ e ∈ Event.onCall t c, e.thread = t
  | _, .head _ => rfl
  | e, .tail _ he => Event.thread_arrive e he

theorem Event.thread_onStep {t : Fin n} {c : Call k} {pc pc' : Pc k} :
    ∀ e ∈ Event.onStep t c pc pc', e.thread = t :=
  Event.thread_arrive

theorem Event.phase_append_self {t : Fin n} (tr : List (Event n k)) {tr' : List (Event n k)}
    (h : ∀ e ∈ tr', e.thread = t) :
    Event.phase t (tr ++ tr') = (Event.phase t tr).bind fun ph => tr'.foldlM Phase.next ph := by
  rw [Event.phase, List.filter_append, (List.filter_eq_self (l := tr')).mpr (by simpa using h),
    List.foldlM_append]
  rfl

theorem Event.phase_append_other {t u : Fin n} (hu : u ≠ t) (tr : List (Event n k))
    {tr' : List (Event n k)} (h : ∀ e ∈ tr', e.thread = t) :
    Event.phase u (tr ++ tr') = Event.phase u tr := by
  rw [Event.phase, List.filter_append,
    (List.filter_eq_nil_iff (l := tr')).mpr fun e he => by simp [h e he, Ne.symm hu],
    List.append_nil]
  rfl

theorem Pc.phase_of_not_returned {pc : Pc k} (hr : ¬ pc.Returned) (c : Call k) :
    pc.phase c = (pc.response.map (.decided c)).getD (.invoked c) := by
  cases pc <;> first | exact absurd trivial hr | rfl

theorem Event.arrive_of_not_returned {pc : Pc k} (hr : ¬ pc.Returned) (t : Fin n) (c : Call k)
    (o : Option Ret) : Event.arrive t c o pc = (o.map (.lin t c)).toList := by
  cases pc <;> first | exact absurd trivial hr | exact List.append_nil _

theorem Phase.next_arrive (t : Fin n) (c : Call k) (pc : Pc k) :
    (Event.arrive t c pc.response pc).foldlM Phase.next (.invoked c) = some (pc.phase c) := by
  by_cases hr : pc.Returned
  · cases pc <;> first
      | exact absurd hr id
      | simp [Event.arrive, Pc.response, Pc.phase, Phase.next]
  · rw [Event.arrive_of_not_returned hr, Pc.phase_of_not_returned hr]
    cases pc.response <;> simp [Phase.next]

theorem Phase.next_onCall (t : Fin n) (c : Call k) :
    (Event.onCall t c).foldlM Phase.next .idle = some (c.entry.phase c) :=
  Phase.next_arrive t c c.entry

theorem Phase.next_onStep {L : Layout} {g g' : Globals k} {a : Answer} {pc pc' : Pc k}
    (hx : pc.exec L g a = some (g', pc')) (t : Fin n) (c : Call k) :
    (Event.onStep t c pc pc').foldlM Phase.next (pc.phase c) = some (pc'.phase c) := by
  have hr : ¬ pc.Returned := by cases pc <;> first | exact id | cases hx
  rw [Event.onStep, Pc.phase_of_not_returned hr, Pc.decides]
  cases h : pc.response with
  | none => exact Phase.next_arrive t c pc'
  | some r =>
    -- the value is decided already: the step keeps it, and returns it at `done`
    have h' := Pc.response_exec hx h
    by_cases hr' : pc'.Returned
    · cases pc' <;> first
        | exact absurd hr' id
        | simp_all [Event.arrive, Pc.response, Pc.phase, Phase.next]
    · rw [Event.arrive_of_not_returned hr', Pc.phase_of_not_returned hr', h']
      rfl

theorem Pc.phase_of_returned {pc : Pc k} (hr : pc.Returned) (c : Call k) : pc.phase c = .idle := by
  cases pc <;> first | rfl | exact absurd hr id

theorem Event.phase_update {t : Fin n} {tr tr' : List (Event n k)}
    (hth : ∀ e ∈ tr', e.thread = t) {th : Fin n → Pc k} {calls : Fin n → Call k} {pc : Pc k}
    {c : Call k} (hph : ∀ u, Event.phase u tr = some ((th u).phase (calls u)))
    (ht : tr'.foldlM Phase.next ((th t).phase (calls t)) = some (pc.phase c)) (u : Fin n) :
    Event.phase u (tr ++ tr') =
      some ((Function.update th t pc u).phase (Function.update calls t c u)) := by
  by_cases hu : u = t
  · subst hu
    rw [Event.phase_append_self tr hth, hph u]
    simpa using ht
  · rw [Event.phase_append_other hu tr hth, hph u, Function.update_noteq hu,
      Function.update_noteq hu]

theorem Call.runs_update {th : Fin n → Pc k} {calls : Fin n → Call k}
    (hr : ∀ u, (calls u).Runs (th u)) {t : Fin n} {pc : Pc k} {c : Call k} (hc : c.Runs pc)
    (u : Fin n) : (Function.update calls t c u).Runs (Function.update th t pc u) := by
  by_cases hu : u = t
  · subst hu; simpa using hc
  · simpa [Function.update_noteq hu] using hr u

-- ---------------------------------------------------------------------------
-- The step where a call takes effect
-- ---------------------------------------------------------------------------

section
variable {s : Conc n k} {nodes : Fin k → List Ptr} {m : Model k} (h : ListInv s nodes m)
include h

theorem ListInv.address_mem_blocksOf {l : Fin k} {x : Ptr × UInt64} (hx : x ∈ m l) :
    x.1 ∈ s.g.blocksOf (nodes l) := by
  rw [← h.model l] at hx
  obtain ⟨e, he, rfl⟩ := List.mem_map.mp hx
  obtain ⟨f, hf, hef⟩ := List.mem_filterMap.mp he
  simpa [Globals.addressOf, hef, MemoryTable.entry] using mem_blocksOf_address (g := s.g) hf

theorem ListInv.address_ne_null {l : Fin k} {x : Ptr × UInt64} (hx : x ∈ m l) : x.1 ≠ NULL :=
  fun h0 => h.null (h0 ▸ h.live_of_list (h.address_mem_blocksOf hx))

theorem ListInv.untracked_of_fresh {q : Ptr} (hq : s.g.Fresh q) : m.Untracked q :=
  fun _ _ hx hxq => hq.2 (hxq ▸ h.live_of_list (h.address_mem_blocksOf hx))

theorem ListInv.untracked_of_thread {t : Fin n} {q : Ptr} (hq : q ∈ (s.th t).blocks s.g) :
    m.Untracked q :=
  fun _ _ hx hxq => h.not_list_of_thread hq (hxq ▸ h.address_mem_blocksOf hx)

theorem ListInv.entry_response (c : Call k) :
    m.ofCalls (c.entry.response.map (Prod.mk c)).toList = m ∧
      m.Legal (c.entry.response.map (Prod.mk c)).toList := by
  cases c with
  | free p head =>
    by_cases hp : p = NULL
    · subst hp
      exact ⟨Op.apply_erase_of_not_mem fun _ hx => h.address_ne_null hx, trivial, trivial⟩
    · simp [Call.entry, hp, Pc.response, Model.ofCalls, Model.Legal]
  | realloc p bytes head =>
    by_cases hp : p = NULL <;> simp [Call.entry, hp, Pc.response, Model.ofCalls, Model.Legal]
  | _ => simp [Call.entry, Pc.response, Model.ofCalls, Model.Legal]

theorem ListInv.decides_exec {t : Fin n} {c : Call k} (hc : c.Runs (s.th t)) {L : Layout}
    {a : Answer} {g' : Globals k} {pc' : Pc k} (hx : (s.th t).exec L s.g a = some (g', pc')) :
    m.step ((s.th t).linOp pc') = m.ofCalls (((s.th t).decides pc').map (Prod.mk c)).toList ∧
      m.Legal (((s.th t).decides pc').map (Prod.mk c)).toList := by
  generalize hpc : s.th t = pc at hc hx
  cases Pc.exec_next hx with
  | mallocItem | mallocRollback | mallocLink | mallocCount | reallocCount | freeCount
    | freeAddress | freeRecord | freeAllCount => exact ⟨rfl, trivial⟩
  | init | getTotalMemory | freeMissing _ | freeUnlink | freeAllSection =>
    subst hc; exact ⟨rfl, trivial, trivial⟩
  | reallocNull => subst hc; exact ⟨rfl, .inl rfl, trivial⟩
  | mallocNull | mallocRolledBack =>
    rcases hc with rfl | ⟨rfl, -⟩ <;> exact ⟨rfl, .inl rfl, trivial⟩
  | @mallocLinked bytes head theName memory newItem =>
    -- the block linked is one the thread holds, so no list tracks it
    have hmem : memory ∈ (s.th t).blocks s.g := by simp [hpc, Pc.blocks]
    have hne : memory ≠ NULL := fun h0 => h.null (h0 ▸ h.live_of_thread hmem)
    rcases hc with rfl | ⟨rfl, -⟩ <;>
      exact ⟨(if_neg hne).symm, .inr (h.untracked_of_thread hmem), trivial⟩
  | @reallocUpdate p bytes head oldSize q hq =>
    -- the record found tracks `p`, and the block moved to `p` or to a fresh block
    subst hc
    obtain ⟨hfound, hmoved⟩ := DYNMEM_realloc_moved hx
    obtain ⟨x, hxm, rfl⟩ : ∃ x ∈ m head, x.1 = p := by
      simpa using mt h.findAddress_eq_null_iff.mpr hfound
    have hp := h.address_ne_null hxm
    refine ⟨?_, .inr ?_, trivial⟩
    · show _ = Call.model m (.realloc x.1 bytes head) (.ptr q)
      rw [Call.model, if_neg hq, if_neg hp]
      rfl
    · rw [if_neg hp]
      exact ⟨⟨x, hxm, rfl⟩, hmoved.imp_right h.untracked_of_fresh⟩

end

-- ---------------------------------------------------------------------------
-- Whole runs
-- ---------------------------------------------------------------------------

/-- What every traced run from the module right after `DYNMEM_Init` keeps: the lists and the
counter are those of the calls in the order they took effect, that order is a legal run of the
list model, each thread's events end where its program counter stands, and each thread is inside
the call it made last. -/
structure LinInv (L : Layout) (s : Conc n k) (calls : Fin n → Call k)
    (tr : List (Event n k)) : Prop where
  lists : ∃ nodes, ListInv s nodes (Model.empty.ofCalls (Event.lins tr))
  counter : CountInv L s (Model.empty.ofCalls (Event.lins tr))
  legal : Model.empty.Legal (Event.lins tr)
  phase : ∀ t, Event.phase t tr = some ((s.th t).phase (calls t))
  runs : ∀ t, (calls t).Runs (s.th t)

section
variable {L : Layout} {s : Conc n k} {calls : Fin n → Call k} {tr : List (Event n k)}

theorem LinInv.initLoad (L : Layout) (calls : Fin n → Call k) :
    LinInv L (Conc.idle (DYNMEM_Init Globals.load)) calls [] where
  lists := ⟨_, ListInv.initLoad⟩
  counter := CountInv.initLoad L
  legal := trivial
  phase _ := rfl
  runs _ := trivial

theorem LinInv.call (hI : LinInv L s calls tr) (t : Fin n) (c : Call k)
    (hr : (s.th t).Returned) :
    LinInv L ⟨s.g, Function.update s.th t c.entry⟩ (Function.update calls t c)
      (tr ++ Event.onCall t c) := by
  obtain ⟨nodes, h⟩ := hI.lists
  obtain ⟨hm, hlegal⟩ := h.entry_response c
  have hlins : Model.empty.ofCalls (Event.lins (tr ++ Event.onCall t c)) =
      Model.empty.ofCalls (Event.lins tr) := by
    rw [Event.lins_append, Model.ofCalls_append, Event.lins_onCall, hm]
  refine ⟨⟨nodes, hlins ▸ (h.of_same_memory rfl rfl rfl
      (by rw [Call.entry_blocks, Pc.blocks_of_returned hr]) (c.entry_holds _)).1⟩,
    hlins ▸ hI.counter.of_balanced (fun hi => ⟨hi, ?_⟩) fun _ _ _ _ => rfl, ?_,
    Event.phase_update Event.thread_onCall hI.phase
      (by rw [Pc.phase_of_returned hr]; exact Phase.next_onCall t c),
    Call.runs_update hI.runs c.runs_entry⟩
  · rw [Call.entry_pending, Pc.pending_of_returned hr]
  · rw [Event.lins_append, Model.legal_append, Event.lins_onCall]
    exact ⟨hI.legal, hlegal⟩

theorem LinInv.exec (hI : LinInv L s calls tr) {t : Fin n} {a : Answer} (ha : a.KeepsBlock)
    {g' : Globals k} {pc' : Pc k} (hx : (s.th t).exec L s.g a = some (g', pc')) :
    LinInv L ⟨g', Function.update s.th t pc'⟩ calls
      (tr ++ Event.onStep t (calls t) (s.th t) pc') := by
  obtain ⟨nodes, h⟩ := hI.lists
  obtain ⟨hm, hlegal⟩ := h.decides_exec (hI.runs t) hx
  obtain ⟨hb, nodes', h', hk⟩ := h.exec L ha hx
  have hlins : Model.empty.ofCalls (Event.lins (tr ++ Event.onStep t (calls t) (s.th t) pc')) =
      (Model.empty.ofCalls (Event.lins tr)).step ((s.th t).linOp pc') := by
    rw [Event.lins_append, Model.ofCalls_append, Event.onStep, Event.lins_arrive, hm]
  have hph := Event.phase_update Event.thread_onStep hI.phase (Phase.next_onStep hx t (calls t))
  have hruns := Call.runs_update hI.runs (t := t) ((hI.runs t).exec hx)
  rw [Function.update_eq_self] at hph hruns
  refine ⟨⟨nodes', hlins ▸ h'⟩, hlins ▸ hI.counter.of_balanced hb hk, ?_, hph, hruns⟩
  rw [Event.lins_append, Model.legal_append, Event.onStep, Event.lins_arrive]
  exact ⟨hI.legal, hlegal⟩

theorem Traced.linInv
    (hr : Traced L Answer.KeepsBlock (Conc.idle (DYNMEM_Init Globals.load)) s calls tr) :
    LinInv L s calls tr := by
  induction hr with
  | start calls => exact LinInv.initLoad L calls
  | call t c _ hret ih => exact ih.call t c hret
  | exec t a _ ha hx ih => exact ih.exec ha hx

end

-- ---------------------------------------------------------------------------
-- Linearizability
-- ---------------------------------------------------------------------------

/-- Every run of any number of threads from the module right after `DYNMEM_Init`, with an
allocator that keeps the block on `NULL`, traced with the events its threads show:
1. each thread's events come as its calls do: a call, the step where it takes effect with the
   value it returns, then its return with that value; so every call takes effect between its
   call and its return, and a call that returned before another was made took effect first;
2. the calls, in the order they took effect and with what they return, are a run of the list
   model in which every call returns what it may there;
3. `DYNMEM_dump` reads from each list the entries that run leaves in it;
4. once every thread has returned, `DYNMEM_GetTotalMemory` reads what that run leaves in the
   lists. -/
theorem traced_linearizable (L : Layout) {s : Conc n k} {calls : Fin n → Call k}
    {tr : List (Event n k)}
    (hr : Traced L Answer.KeepsBlock (Conc.idle (DYNMEM_Init Globals.load)) s calls tr) :
    (∀ t, Event.phase t tr ≠ none) ∧ Model.empty.Legal (Event.lins tr) ∧
      (∀ l, (DYNMEM_dump L s.g (s.g.heads l)).map (fun d => d.blocks.map MemoryTable.entry) =
        some (Model.empty.ofCalls (Event.lins tr) l)) ∧
      ((∀ t, (s.th t).Returned) →
        DYNMEM_GetTotalMemory s.g = (Model.empty.ofCalls (Event.lins tr)).total L) := by
  have hI := hr.linInv
  obtain ⟨nodes, h⟩ := hI.lists
  refine ⟨fun t => by simp [hI.phase t], hI.legal, h.dump_entries L, fun hret => ?_⟩
  have := hI.counter.counter
  rwa [Finset.sum_eq_zero fun t _ => Pc.pending_of_returned (hret t) L s.g, add_zero] at this

def raceTrace : Conc 2 1 × (Fin 2 → Call 1) × List (Event 2 1) :=
  ((Conc.idle (DYNMEM_Init Globals.load)).runTraced sampleLayout (fun _ => .init)
    raceSchedule).getD (Conc.idle Globals.load, fun _ => .init, [])

theorem raceTrace_traced :
    Traced sampleLayout Answer.KeepsBlock (Conc.idle (DYNMEM_Init Globals.load)) raceTrace.1
      raceTrace.2.1 raceTrace.2.2 :=
  (Traced.start fun _ => .init).runTraced
    (show ∀ a ∈ Sched.answers raceSchedule, a.KeepsBlock by decide) rfl

theorem traced_linearizable_race :
    Traced sampleLayout Answer.KeepsBlock (Conc.idle (DYNMEM_Init Globals.load)) raceTrace.1
        raceTrace.2.1 raceTrace.2.2 ∧
      (∀ t, Event.phase t raceTrace.2.2 ≠ none) ∧ Model.empty.Legal (Event.lins raceTrace.2.2) ∧
      (∀ l, (DYNMEM_dump sampleLayout raceTrace.1.g (raceTrace.1.g.heads l)).map
          (fun d => d.blocks.map MemoryTable.entry) =
        some (Model.empty.ofCalls (Event.lins raceTrace.2.2) l)) ∧
      ((∀ t, (raceTrace.1.th t).Returned) → DYNMEM_GetTotalMemory raceTrace.1.g =
        (Model.empty.ofCalls (Event.lins raceTrace.2.2)).total sampleLayout) :=
  ⟨raceTrace_traced, traced_linearizable sampleLayout raceTrace_traced⟩

/- In the race, `DYNMEM_malloc` takes effect at its critical section, before `DYNMEM_freeAll`
empties the list, although it has not yet returned. -/
example : Event.lins raceTrace.2.2 = [(.malloc 16 0 "a", .ptr 1), (.freeAll 0, .void)] := by
  rfl

-- ---------------------------------------------------------------------------
-- No block tracked twice
-- ---------------------------------------------------------------------------

theorem ListInv.model_eq (L : Layout) {s : Conc n k} {nodes nodes' : Fin k → List Ptr}
    {m m' : Model k} (h : ListInv s nodes m) (h' : ListInv s nodes' m') : m = m' :=
  funext fun l => Option.some.inj ((h.dump_entries L l).symm.trans (h'.dump_entries L l))

/-- No block is ever tracked twice. In every state of every interleaving from the module right
after `DYNMEM_Init`, with an allocator that keeps the block on `NULL`, no two entries that
`DYNMEM_dump` reads from the lists, in one list or in two, track the same block. So the first
entry for an address, which `DYNMEM_free` and `DYNMEM_realloc` act on, is its only one. The
sequential model keeps this for every call that returns what it may, and the run is such a
sequential run. -/
theorem reach_tracked_once (L : Layout) {s : Conc n k} {ops : List (Op k)}
    (hr : Reach L Answer.KeepsBlock (Conc.idle (DYNMEM_Init Globals.load)) s ops) :
    ∃ m : Model k, (∀ l, (DYNMEM_dump L s.g (s.g.heads l)).map
      (fun d => d.blocks.map MemoryTable.entry) = some (m l)) ∧ m.TrackedOnce := by
  obtain ⟨_, h⟩ := ListInv.initLoad.reach hr
  obtain ⟨calls, tr, ht⟩ := hr.traced fun _ => .init
  have hI : LinInv L s calls tr := ht.linInv
  obtain ⟨_, h'⟩ := hI.lists
  refine ⟨_, h.dump_entries L, ?_⟩
  rw [h.model_eq L h']
  exact Model.trackedOnce_empty.ofCalls hI.legal

theorem reach_tracked_once_twoLists :
    Reach sampleLayout Answer.KeepsBlock (Conc.idle (DYNMEM_Init Globals.load)) twoListsRun.1
        twoListsRun.2 ∧
      ∃ m : Model 2, (∀ l, (DYNMEM_dump sampleLayout twoListsRun.1.g (twoListsRun.1.g.heads l)).map
        (fun d => d.blocks.map MemoryTable.entry) = some (m l)) ∧ m.TrackedOnce :=
  ⟨twoListsRun_reach, reach_tracked_once sampleLayout twoListsRun_reach⟩

-- ---------------------------------------------------------------------------
-- Single-threaded runs
-- ---------------------------------------------------------------------------

theorem Event.lins_onStep_response {L : Layout} {g g' : Globals k} {a : Answer} {pc pc' : Pc k}
    (hx : pc.exec L g a = some (g', pc')) (t : Fin n) (c : Call k) :
    (pc.response.map (Prod.mk c)).toList ++ Event.lins (Event.onStep t c pc pc') =
      (pc'.response.map (Prod.mk c)).toList := by
  rw [Event.onStep, Event.lins_arrive, Pc.decides]
  cases h : pc.response with
  | none => rfl
  | some r => simp [Pc.response_exec hx h]

theorem Traced.runCall {L : Layout} {allow : Answer → Prop} {s₀ : Conc 1 k} {g g' : Globals k}
    {pc : Pc k} {calls : Fin 1 → Call k} {tr : List (Event 1 k)} {as : List Answer} {r : Ret}
    {rep : Option Report} (h₀ : Traced L allow s₀ (Conc.solo g pc) calls tr)
    (has : ∀ a ∈ as, allow a) (hrun : runCall L g pc as = some (g', r, rep)) :
    ∃ tr', Traced L allow s₀ (Conc.solo g' (.done r rep)) calls (tr ++ tr') ∧
      (pc.response.map (Prod.mk (calls 0))).toList ++ Event.lins tr' = [(calls 0, r)] := by
  induction g, pc, as using runCall.induct L generalizing tr with
  | case1 as g r' rep' =>
    rw [runCall_done] at hrun
    obtain ⟨rfl, rfl, rfl⟩ : g = g' ∧ r' = r ∧ rep' = rep := by simpa using hrun
    exact ⟨[], by simpa using h₀, rfl⟩
  | case2 g pc hpc => cases pc <;> first | exact absurd rfl (hpc _ _) | cases hrun
  | case3 g pc a as hpc ih =>
    have hret : ¬ pc.Returned := by cases pc <;> first | exact id | exact absurd rfl (hpc _ _)
    rw [runCall_cons L hret] at hrun
    obtain ⟨⟨g₁, pc₁⟩, hx, hrun⟩ := Option.bind_eq_some.mp hrun
    have h₁ := h₀.exec 0 a (has a (List.mem_cons_self _ _)) hx
    rw [Conc.solo_update] at h₁
    obtain ⟨tr', h', hl⟩ := ih (g₁, pc₁) h₁ (fun a ha => has a (List.mem_cons_of_mem _ ha)) hrun
    refine ⟨Event.onStep 0 (calls 0) pc pc₁ ++ tr', by simpa using h', ?_⟩
    rw [Event.lins_append, ← List.append_assoc, Event.lins_onStep_response hx]
    exact hl

theorem SeqRun.traced {L : Layout} {allow : Answer → Prop} {g₀ g : Globals k}
    {hist : List (Call k × Ret)} (hr : SeqRun L allow g₀ g hist) :
    ∃ pc calls tr, pc.Returned ∧
      Traced L allow (Conc.idle g₀ : Conc 1 k) (Conc.solo g pc) calls tr ∧
      Event.lins tr = hist := by
  induction hr with
  | start => exact ⟨.done .void none, fun _ => .init, [], trivial, .start _, rfl⟩
  | @call g g' hist c as r rep _ has hrun ih =>
    obtain ⟨pc, calls, tr, hret, ht, hl⟩ := ih
    have h₁ := ht.call 0 c hret
    rw [Conc.solo_update] at h₁
    obtain ⟨tr', h', hl'⟩ := h₁.runCall has hrun
    refine ⟨.done r rep, _, _, trivial, h', ?_⟩
    rw [Event.lins_append, Event.lins_append, Event.lins_onCall, hl, List.append_assoc]
    simpa using hl'

/-- In single-threaded use, from the module right after `DYNMEM_Init` with an allocator that
keeps the block on `NULL`, every call returns what the list model allows: `DYNMEM_malloc`
returns `NULL` or a block no list tracks, and `DYNMEM_realloc(p, n)`, `p` not `NULL`, returns
`NULL` unless its list tracks `p`, and otherwise `p` or a block no list tracks. -/
theorem seqRun_legal (L : Layout) {g : Globals k} {hist : List (Call k × Ret)}
    (hr : SeqRun L Answer.KeepsBlock (DYNMEM_Init Globals.load) g hist) :
    Model.empty.Legal hist := by
  obtain ⟨pc, calls, tr, -, ht, rfl⟩ := hr.traced
  exact (Traced.linInv (L := L) ht).legal

theorem seqRun_legal_sample :
    SeqRun sampleLayout Answer.KeepsBlock (DYNMEM_Init Globals.load) sampleRun.1 sampleRun.2 ∧
      Model.empty.Legal sampleRun.2 :=
  ⟨sampleRun_seqRun, seqRun_legal sampleLayout sampleRun_seqRun⟩

end DynamicMemory
