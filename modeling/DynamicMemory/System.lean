import DynamicMemory.Model

/-!
# Threads and runs

`n` threads share the globals; each runs calls one after another. A step is either a
returned thread starting a call, or one thread taking the next atomic part of its call, with
the allocator's answer to the call it makes. The critical section of a list call is its
linearization point: a step is labelled with the change of the list model it stands for.

A single-threaded run is a sequence of calls, each run to its return before the next starts.
`Pc.Next` says once where one step can take a thread; proofs about whole calls start from it.
-/

namespace DynamicMemory

variable {n k : Nat}

/-- Whether an answer keeps the block on `NULL`: every answer but glibc's `realloc(p, 0)`. -/
def Answer.KeepsBlock (a : Answer) : Prop := a ≠ .nullFreeing

instance : DecidablePred Answer.KeepsBlock := fun a => inferInstanceAs (Decidable (a ≠ _))

def Pc.Returned : Pc k → Prop
  | .done _ _ => True
  | _ => False

instance : DecidablePred (Pc.Returned (k := k)) := fun pc => by
  cases pc <;> simp only [Pc.Returned] <;> infer_instance

/-- The list change of a step from `pc` to `pc'`: a `DYNMEM_malloc` linking its record, a
`DYNMEM_realloc` that moved its block, and every critical section of `DYNMEM_free` and of
`DYNMEM_freeAll`; that of `DYNMEM_free` erases nothing when no record tracks its address. -/
def Pc.linOp : Pc k → Pc k → Option (Op k)
  | .malloc bytes head _ (.link memory _), _ => some (.push head memory bytes)
  | .realloc p bytes head .listSection, .realloc _ _ _ (.count _ q) =>
    some (.replace head p q bytes)
  | .free p head .listSection, _ => some (.erase head p)
  | .freeAll head .listSection, _ => some (.clear head)
  | _, _ => none

/-- Where one step can take a thread, with what the step checked on the way: `Pc.exec` read
per stage. The globals `g` are those the step starts from. -/
inductive Pc.Next (g : Globals k) : Pc k → Pc k → Prop
  | init : Pc.Next g .init (.done .void none)
  | getTotalMemory {r : UInt64} : Pc.Next g .getTotalMemory (.done (.total r) none)
  | mallocNull {bytes head theName rep} :
      Pc.Next g (.malloc bytes head theName .calloc) (.done (.ptr NULL) rep)
  | mallocItem {bytes head theName memory} (hm : memory ≠ NULL) :
      Pc.Next g (.malloc bytes head theName .calloc) (.malloc bytes head theName (.item memory))
  | mallocRollback {bytes head theName memory} :
      Pc.Next g (.malloc bytes head theName (.item memory))
        (.malloc bytes head theName (.rollback memory))
  | mallocLink {bytes head theName memory newItem} :
      Pc.Next g (.malloc bytes head theName (.item memory))
        (.malloc bytes head theName (.link memory newItem))
  | mallocRolledBack {bytes head theName memory rep} :
      Pc.Next g (.malloc bytes head theName (.rollback memory)) (.done (.ptr NULL) rep)
  | mallocLinked {bytes head theName memory newItem} :
      Pc.Next g (.malloc bytes head theName (.link memory newItem))
        (.malloc bytes head theName (.count memory))
  | mallocCount {bytes head theName memory} :
      Pc.Next g (.malloc bytes head theName (.count memory)) (.done (.ptr memory) none)
  | reallocNull {p bytes head rep} :
      Pc.Next g (.realloc p bytes head .listSection) (.done (.ptr NULL) rep)
  | reallocUpdate {p bytes head oldSize q} (hq : q ≠ NULL) :
      Pc.Next g (.realloc p bytes head .listSection) (.realloc p bytes head (.count oldSize q))
  | reallocCount {p bytes head oldSize q} :
      Pc.Next g (.realloc p bytes head (.count oldSize q)) (.done (.ptr q) none)
  | freeMissing {p head rep} (hf : findAddress g p g.walkFuel (g.heads head) = some NULL) :
      Pc.Next g (.free p head .listSection) (.done .void rep)
  | freeUnlink {p head found} : Pc.Next g (.free p head .listSection) (.free p head (.count found))
  | freeCount {p head found} :
      Pc.Next g (.free p head (.count found)) (.free p head (.address found))
  | freeAddress {p head found} :
      Pc.Next g (.free p head (.address found)) (.free p head (.record found))
  | freeRecord {p head found} : Pc.Next g (.free p head (.record found)) (.done .void none)
  | freeAllSection {head totalSizeRemoved} :
      Pc.Next g (.freeAll head .listSection) (.freeAll head (.count totalSizeRemoved))
  | freeAllCount {head totalSizeRemoved} :
      Pc.Next g (.freeAll head (.count totalSizeRemoved)) (.done .void none)

theorem Pc.exec_next {L : Layout} {g g' : Globals k} {a : Answer} {pc pc' : Pc k}
    (hx : pc.exec L g a = some (g', pc')) : Pc.Next g pc pc' := by
  rcases pc with _ | _ | _ | ⟨_, _, _, _ | _ | _ | _ | _⟩ | ⟨_, _, _, _ | _⟩ |
    ⟨_, _, _ | _ | _ | _⟩ | ⟨_, _ | _⟩ <;>
    simp only [Pc.exec, DYNMEM_malloc, DYNMEM_realloc, DYNMEM_free, DYNMEM_freeAll,
      Option.bind_eq_bind, Option.bind_eq_some, Option.some.injEq, Prod.mk.injEq] at hx
  -- the critical sections of `DYNMEM_realloc` and `DYNMEM_free` branch on the search
  case realloc.listSection =>
    obtain ⟨_, -, hx⟩ := hx
    split_ifs at hx
    · obtain ⟨-, rfl⟩ := Prod.mk.inj (Option.some.inj hx); exact .reallocNull
    · obtain ⟨_, -, hx⟩ := Option.bind_eq_some.mp hx
      split_ifs at hx with hq
      · obtain ⟨_, -, _, -, hx⟩ := by simpa only [Option.bind_eq_some] using hx
        obtain ⟨-, rfl⟩ := Prod.mk.inj (Option.some.inj hx); exact .reallocUpdate hq
      · obtain ⟨-, rfl⟩ := Prod.mk.inj (Option.some.inj hx); exact .reallocNull
  case free.listSection =>
    obtain ⟨_, hf, hx⟩ := hx
    split_ifs at hx with hn
    · obtain ⟨-, rfl⟩ := Prod.mk.inj (Option.some.inj hx); exact .freeMissing (hn ▸ hf)
    · obtain ⟨_, -, hx⟩ := Option.bind_eq_some.mp hx
      obtain ⟨-, rfl⟩ := Prod.mk.inj (Option.some.inj hx); exact .freeUnlink
  all_goals first
    | (obtain ⟨-, rfl⟩ := hx; constructor)
    | (obtain ⟨_, -, -, rfl⟩ := hx; constructor)
    | (obtain ⟨_, -, _, -, -, rfl⟩ := hx; constructor)
    | (split_ifs at hx <;> obtain ⟨-, rfl⟩ := hx <;> constructor <;> assumption)
    | nomatch hx

structure Conc (n k : Nat) where
  g : Globals k
  th : Fin n → Pc k

def Conc.idle (g : Globals k) : Conc n k := ⟨g, fun _ => .done .void none⟩

/-- One step, with the answers `allow` admits. -/
inductive Step (L : Layout) (allow : Answer → Prop) : Conc n k → Option (Op k) → Conc n k → Prop
  | call {s : Conc n k} (t : Fin n) (c : Call k) (hr : (s.th t).Returned) :
      Step L allow s none ⟨s.g, Function.update s.th t c.entry⟩
  | exec {s : Conc n k} {g' : Globals k} {pc' : Pc k} (t : Fin n) (a : Answer) (ha : allow a)
      (h : (s.th t).exec L s.g a = some (g', pc')) :
      Step L allow s ((s.th t).linOp pc') ⟨g', Function.update s.th t pc'⟩

/-- The states reachable from `s₀`, with the list changes made on the way, in the order their
critical sections ran. -/
inductive Reach (L : Layout) (allow : Answer → Prop) (s₀ : Conc n k) :
    Conc n k → List (Op k) → Prop
  | start : Reach L allow s₀ s₀ []
  | step {s s' : Conc n k} {ops : List (Op k)} {o : Option (Op k)} :
      Reach L allow s₀ s ops → Step L allow s o s' → Reach L allow s₀ s' (ops ++ o.toList)

/-- One step of a schedule: thread `t` starts the call `c`, or takes its next step with the
allocator's answer `a`. -/
inductive Sched (n k : Nat)
  | call (t : Fin n) (c : Call k)
  | exec (t : Fin n) (a : Answer)
  deriving DecidableEq, Repr

def Conc.sched (L : Layout) (s : Conc n k) : Sched n k → Option (Conc n k × Option (Op k))
  | .call t c =>
    if (s.th t).Returned then some (⟨s.g, Function.update s.th t c.entry⟩, none) else none
  | .exec t a =>
    ((s.th t).exec L s.g a).map fun r => (⟨r.1, Function.update s.th t r.2⟩, (s.th t).linOp r.2)

def Conc.runSched (L : Layout) (s : Conc n k) : List (Sched n k) → Option (Conc n k × List (Op k))
  | [] => some (s, [])
  | σ :: σs => (s.sched L σ).bind fun r =>
    (r.1.runSched L σs).map fun r' => (r'.1, r.2.toList ++ r'.2)

def Sched.answers : List (Sched n k) → List Answer
  | [] => []
  | .call _ _ :: σs => Sched.answers σs
  | .exec _ a :: σs => a :: Sched.answers σs

/-- Single-threaded runs from `g₀`: the globals after each call, with the calls made and what
each returned. -/
inductive SeqRun (L : Layout) (allow : Answer → Prop) (g₀ : Globals k) :
    Globals k → List (Call k × Ret) → Prop
  | start : SeqRun L allow g₀ g₀ []
  | call {g g' : Globals k} {hist : List (Call k × Ret)} {c : Call k} {as : List Answer}
      {r : Ret} {rep : Option Report} :
      SeqRun L allow g₀ g hist → (∀ a ∈ as, allow a) →
      runCall L g c.entry as = some (g', r, rep) → SeqRun L allow g₀ g' (hist ++ [(c, r)])

theorem Reach.trans {L : Layout} {allow : Answer → Prop} {s₀ s s' : Conc n k}
    {ops ops' : List (Op k)} (h : Reach L allow s₀ s ops) (h' : Reach L allow s s' ops') :
    Reach L allow s₀ s' (ops ++ ops') := by
  induction h' with
  | start => simpa using h
  | step _ hs ih => rw [← List.append_assoc]; exact ih.step hs

theorem Conc.runSched_reach {L : Layout} {allow : Answer → Prop} {s s' : Conc n k}
    {σs : List (Sched n k)} {ops : List (Op k)} (hσ : ∀ a ∈ Sched.answers σs, allow a)
    (h : s.runSched L σs = some (s', ops)) : Reach L allow s s' ops := by
  induction σs generalizing s ops with
  | nil =>
    obtain ⟨rfl, rfl⟩ : s = s' ∧ [] = ops := by simpa [Conc.runSched] using h
    exact .start
  | cons σ σs ih =>
    simp only [Conc.runSched, Option.bind_eq_some, Option.map_eq_some'] at h
    obtain ⟨⟨s₁, o⟩, h₁, ⟨s₂, ops₂⟩, h₂, hr⟩ := h
    cases hr
    have first : Reach L allow s s₁ ([] ++ o.toList) := by
      cases σ with
      | call t c =>
        simp only [Conc.sched] at h₁
        split at h₁
        · cases h₁; exact .step .start (.call t c ‹_›)
        · cases h₁
      | exec t a =>
        simp only [Conc.sched, Option.map_eq_some'] at h₁
        obtain ⟨⟨g', pc'⟩, hx, hr⟩ := h₁
        cases hr
        exact .step .start (.exec t a (hσ a (List.mem_cons_self _ _)) hx)
    rw [List.nil_append] at first
    exact first.trans (ih (fun a ha => hσ a (by cases σ <;> simp [Sched.answers, ha])) h₂)

end DynamicMemory
