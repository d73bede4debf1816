import DynamicMemory.Code
import Mathlib.Algebra.BigOperators.Group.Finset
import Mathlib.Tactic.Abel

/-!
# The list model

What the lists are for, said without pointers: each list is a sequence of `(address, size)`
entries. A successful `DYNMEM_malloc` puts its block in front; a successful `DYNMEM_realloc`
of `p` replaces the first entry for `p` in place, and `DYNMEM_realloc(NULL, n)` is a
`DYNMEM_malloc`; `DYNMEM_free(p)` removes the first entry for `p`; `DYNMEM_freeAll` empties
the list. A call that returns `NULL` changes nothing.
-/

namespace DynamicMemory

open Finset in
theorem sum_update_add {ι M : Type*} [Fintype ι] [DecidableEq ι] [AddCommMonoid M]
    (f : ι → M) (i : ι) (b : M) : ∑ j, Function.update f i b j + f i = ∑ j, f j + b := by
  rw [sum_update_of_mem (mem_univ i), sum_eq_add_sum_diff_singleton (mem_univ i) f]
  abel

variable {k : Nat}

/-- What every list holds, as `(address, size)` entries from the head on. -/
abbrev Model (k : Nat) := Fin k → List (Ptr × UInt64)

def Model.empty : Model k := fun _ => []

/-- One change of one list. -/
inductive Op (k : Nat)
  | push (head : Fin k) (address : Ptr) (size : UInt64)
  | replace (head : Fin k) (address newAddress : Ptr) (size : UInt64)
  | erase (head : Fin k) (address : Ptr)
  | clear (head : Fin k)
  deriving DecidableEq, Repr

def replaceFirst (address : Ptr) (x : Ptr × UInt64) (xs : List (Ptr × UInt64)) :
    List (Ptr × UInt64) :=
  xs.replaceF fun y => if y.1 = address then some x else none

def eraseFirst (address : Ptr) (xs : List (Ptr × UInt64)) : List (Ptr × UInt64) :=
  xs.eraseP fun y => y.1 = address

theorem replaceFirst_append {p : Ptr} {x : Ptr × UInt64} {xs ys : List (Ptr × UInt64)}
    (hxs : ∀ y ∈ xs, y.1 ≠ p) (b : UInt64) :
    replaceFirst p x (xs ++ (p, b) :: ys) = xs ++ x :: ys := by
  induction xs with
  | nil => simp [replaceFirst, List.replaceF]
  | cons y xs ih =>
    simp only [List.mem_cons, forall_eq_or_imp] at hxs
    simpa [replaceFirst, List.replaceF, hxs.1] using ih hxs.2

theorem eraseFirst_append {p : Ptr} {xs ys : List (Ptr × UInt64)}
    (hxs : ∀ y ∈ xs, y.1 ≠ p) (b : UInt64) :
    eraseFirst p (xs ++ (p, b) :: ys) = xs ++ ys := by
  induction xs with
  | nil => simp [eraseFirst]
  | cons y xs ih =>
    simp only [List.mem_cons, forall_eq_or_imp] at hxs
    simpa [eraseFirst, hxs.1] using ih hxs.2

def Op.apply : Op k → Model k → Model k
  | .push l p b, m => Function.update m l ((p, b) :: m l)
  | .replace l p q b, m => Function.update m l (replaceFirst p (q, b) (m l))
  | .erase l p, m => Function.update m l (eraseFirst p (m l))
  | .clear l, m => Function.update m l []

theorem Op.apply_erase_of_not_mem {m : Model k} {l : Fin k} {p : Ptr}
    (hp : ∀ y ∈ m l, y.1 ≠ p) : (Op.erase l p).apply m = m := by
  rw [Op.apply, eraseFirst, List.eraseP_of_forall_not (by simpa using hp), Function.update_eq_self]

def Model.step (m : Model k) : Option (Op k) → Model k
  | none => m
  | some o => o.apply m

def Model.applyAll (m : Model k) (ops : List (Op k)) : Model k := ops.foldl (fun m o => o.apply m) m

@[simp] theorem Model.applyAll_nil (m : Model k) : m.applyAll [] = m := rfl

theorem Model.applyAll_append (m : Model k) (ops ops' : List (Op k)) :
    m.applyAll (ops ++ ops') = (m.applyAll ops).applyAll ops' := List.foldl_append ..

theorem Model.applyAll_step (m : Model k) (ops : List (Op k)) (o : Option (Op k)) :
    m.applyAll (ops ++ o.toList) = (m.applyAll ops).step o := by
  cases o <;> simp [Model.applyAll_append, Model.step, Model.applyAll]

-- ---------------------------------------------------------------------------
-- What the lists hold, as the counter counts it
-- ---------------------------------------------------------------------------

/-- `size + sizeof(record)` summed over the entries `xs`, in 64-bit arithmetic. -/
def entriesTotal (L : Layout) (xs : List (Ptr × UInt64)) : UInt64 :=
  (xs.map fun x => x.2 + L.tableSize).sum

@[simp] theorem entriesTotal_nil (L : Layout) : entriesTotal L [] = 0 := rfl

@[simp] theorem entriesTotal_cons (L : Layout) (x : Ptr × UInt64) (xs : List (Ptr × UInt64)) :
    entriesTotal L (x :: xs) = x.2 + L.tableSize + entriesTotal L xs := List.sum_cons

@[simp] theorem entriesTotal_append (L : Layout) (xs ys : List (Ptr × UInt64)) :
    entriesTotal L (xs ++ ys) = entriesTotal L xs + entriesTotal L ys := by
  simp [entriesTotal]

def Model.total (L : Layout) (m : Model k) : UInt64 := ∑ l, entriesTotal L (m l)

theorem Model.total_update (L : Layout) (m : Model k) (l : Fin k) (xs : List (Ptr × UInt64)) :
    Model.total L (Function.update m l xs) + entriesTotal L (m l) = m.total L + entriesTotal L xs := by
  simp only [Model.total]
  rw [← sum_update_add (fun j => entriesTotal L (m j)) l]
  congr 1
  refine Finset.sum_congr rfl fun j _ => ?_
  by_cases hj : j = l
  · subst hj; simp
  · simp [Function.update_noteq hj]

theorem Model.total_push (L : Layout) (m : Model k) (l : Fin k) (p : Ptr) (b : UInt64) :
    ((Op.push l p b).apply m).total L = m.total L + (b + L.tableSize) := by
  have := Model.total_update L m l ((p, b) :: m l)
  rw [entriesTotal_cons, ← add_assoc] at this
  exact add_right_cancel this

theorem Model.total_clear (L : Layout) (m : Model k) (l : Fin k) :
    ((Op.clear l).apply m).total L + entriesTotal L (m l) = m.total L := by
  simpa using Model.total_update L m l []

theorem Model.total_replace (L : Layout) {m : Model k} {l : Fin k} {p q : Ptr} {b c : UInt64}
    {xs ys : List (Ptr × UInt64)} (hm : m l = xs ++ (p, b) :: ys) (hxs : ∀ y ∈ xs, y.1 ≠ p) :
    ((Op.replace l p q c).apply m).total L + b = m.total L + c := by
  have := Model.total_update L m l (replaceFirst p (q, c) (m l))
  rw [hm, replaceFirst_append hxs] at this
  simp only [entriesTotal_append, entriesTotal_cons] at this
  rw [Op.apply, hm, replaceFirst_append hxs]
  apply add_right_cancel (b := entriesTotal L xs + L.tableSize + entriesTotal L ys)
  calc _ = Model.total L (Function.update m l (xs ++ (q, c) :: ys)) +
        (entriesTotal L xs + (b + L.tableSize + entriesTotal L ys)) := by abel
    _ = _ := by rw [this]; abel

theorem Model.total_erase (L : Layout) {m : Model k} {l : Fin k} {p : Ptr} {b : UInt64}
    {xs ys : List (Ptr × UInt64)} (hm : m l = xs ++ (p, b) :: ys) (hxs : ∀ y ∈ xs, y.1 ≠ p) :
    ((Op.erase l p).apply m).total L + (b + L.tableSize) = m.total L := by
  have := Model.total_update L m l (eraseFirst p (m l))
  rw [hm, eraseFirst_append hxs] at this
  simp only [entriesTotal_append, entriesTotal_cons] at this
  rw [Op.apply, hm, eraseFirst_append hxs]
  apply add_right_cancel (b := entriesTotal L xs + entriesTotal L ys)
  calc _ = Model.total L (Function.update m l (xs ++ ys)) + (entriesTotal L xs +
        (b + L.tableSize + entriesTotal L ys)) := by abel
    _ = _ := by rw [this]

/-- The change a call makes, read from what it returned. -/
def Call.model (m : Model k) : Call k → Ret → Model k
  | .malloc bytes head _, .ptr r => if r = NULL then m else (Op.push head r bytes).apply m
  | .realloc p bytes head, .ptr r =>
    if r = NULL then m
    else if p = NULL then (Op.push head r bytes).apply m
    else (Op.replace head p r bytes).apply m
  | .free p head, _ => (Op.erase head p).apply m
  | .freeAll head, _ => (Op.clear head).apply m
  | _, _ => m

/-- The lists after a run of calls, each with what it returned. -/
def Model.ofCalls (m : Model k) (hist : List (Call k × Ret)) : Model k :=
  hist.foldl (fun m cr => cr.1.model m cr.2) m

theorem Model.ofCalls_concat (m : Model k) (hist : List (Call k × Ret)) (c : Call k) (r : Ret) :
    m.ofCalls (hist ++ [(c, r)]) = Call.model (m.ofCalls hist) c r :=
  List.foldl_concat ..

theorem Model.ofCalls_append (m : Model k) (hist hist' : List (Call k × Ret)) :
    m.ofCalls (hist ++ hist') = (m.ofCalls hist).ofCalls hist' :=
  List.foldl_append ..

-- ---------------------------------------------------------------------------
-- What a call may return
-- ---------------------------------------------------------------------------

def Model.Untracked (m : Model k) (q : Ptr) : Prop := ∀ l, ∀ x ∈ m l, x.1 ≠ q

instance (m : Model k) (q : Ptr) : Decidable (m.Untracked q) :=
  inferInstanceAs (Decidable (∀ l, ∀ x ∈ m l, x.1 ≠ q))

/-- What a call may return when it takes effect on the lists `m`. A new block is `NULL` or one
no list tracks. `DYNMEM_realloc(p, n)` returns a block other than `NULL` only when its list
tracks `p`, and then `p` itself or a block no list tracks. The counter lags behind the lists
while calls are between their two parts, so nothing is asked of what
`DYNMEM_GetTotalMemory` reads. -/
def Call.Legal (m : Model k) : Call k → Ret → Prop
  | .malloc _ _ _, .ptr q => q = NULL ∨ m.Untracked q
  | .realloc p _ head, .ptr q =>
    q = NULL ∨ if p = NULL then m.Untracked q else (∃ x ∈ m head, x.1 = p) ∧ (q = p ∨ m.Untracked q)
  | .free _ _, .void | .freeAll _, .void | .init, .void | .getTotalMemory, .total _ => True
  | _, _ => False

/-- A run of calls from the lists `m` in which every call returns what it may. -/
def Model.Legal : Model k → List (Call k × Ret) → Prop
  | _, [] => True
  | m, (c, r) :: hist => c.Legal m r ∧ Model.Legal (c.model m r) hist

theorem Model.legal_append (m : Model k) (hist hist' : List (Call k × Ret)) :
    m.Legal (hist ++ hist') ↔ m.Legal hist ∧ (m.ofCalls hist).Legal hist' := by
  induction hist generalizing m with
  | nil => simp [Model.Legal, Model.ofCalls]
  | cons cr hist ih =>
    obtain ⟨c, r⟩ := cr
    simp [Model.Legal, Model.ofCalls, ih, and_assoc]

-- ---------------------------------------------------------------------------
-- No block tracked twice
-- ---------------------------------------------------------------------------

def Model.count (m : Model k) (q : Ptr) : Nat :=
  ∑ l, (m l).countP fun x : Ptr × UInt64 => x.1 = q

/-- No block is tracked twice, in one list or across lists. -/
def Model.TrackedOnce (m : Model k) : Prop := ∀ q, m.count q ≤ 1

theorem Model.count_update (m : Model k) (l : Fin k) (xs : List (Ptr × UInt64)) (q : Ptr) :
    Model.count (Function.update m l xs) q + (m l).countP (fun x => x.1 = q) =
      m.count q + xs.countP fun x => x.1 = q := by
  simpa [Model.count, Function.apply_update (fun _ => List.countP fun x : Ptr × UInt64 => x.1 = q)]
    using sum_update_add (fun j => (m j).countP fun x => x.1 = q) l (xs.countP fun x => x.1 = q)

theorem Model.count_eq_zero {m : Model k} {q : Ptr} (hq : m.Untracked q) : m.count q = 0 :=
  Finset.sum_eq_zero fun l _ => List.countP_eq_zero.mpr fun x hx => by simpa using hq l x hx

theorem replaceFirst_map_fst (p : Ptr) (b : UInt64) (xs : List (Ptr × UInt64)) :
    (replaceFirst p (p, b) xs).map Prod.fst = xs.map Prod.fst := by
  induction xs with
  | nil => rfl
  | cons y ys ih =>
    by_cases hy : y.1 = p
    · simp [replaceFirst, List.replaceF, hy]
    · simpa [replaceFirst, List.replaceF, hy] using ih

theorem replaceFirst_countP_le (p : Ptr) (x : Ptr × UInt64) (xs : List (Ptr × UInt64))
    (f : Ptr × UInt64 → Bool) :
    (replaceFirst p x xs).countP f ≤ xs.countP f + if f x then 1 else 0 := by
  induction xs with
  | nil => exact Nat.zero_le _
  | cons y ys ih =>
    by_cases hy : y.1 = p
    · simp only [replaceFirst, List.replaceF, hy, if_true, List.countP_cons]
      split_ifs <;> omega
    · simp only [replaceFirst, List.replaceF, hy, if_false, List.countP_cons] at ih ⊢
      split_ifs at ih ⊢ <;> omega

section
variable {m : Model k} (hm : m.TrackedOnce)
include hm

theorem Model.TrackedOnce.push (l : Fin k) {p : Ptr} (hp : m.Untracked p) (b : UInt64) :
    ((Op.push l p b).apply m).TrackedOnce := fun q => by
  have hupd := Model.count_update m l ((p, b) :: m l) q
  rw [Op.apply]
  by_cases hpq : p = q
  · subst hpq
    have := Model.count_eq_zero hp
    simp [List.countP_cons] at hupd
    omega
  · have := hm q
    simp [List.countP_cons, hpq] at hupd
    omega

theorem Model.TrackedOnce.update {l : Fin k} {xs : List (Ptr × UInt64)}
    (hxs : xs.Sublist (m l)) : Model.TrackedOnce (Function.update m l xs) := fun q => by
  have := Model.count_update m l xs q
  have := hxs.countP_le (fun x => x.1 = q)
  have := hm q
  omega

theorem Model.TrackedOnce.replace (l : Fin k) {p q : Ptr} (hq : q = p ∨ m.Untracked q)
    (b : UInt64) : ((Op.replace l p q b).apply m).TrackedOnce := fun r => by
  have hupd := Model.count_update m l (replaceFirst p (q, b) (m l)) r
  rw [Op.apply]
  rcases hq with rfl | hq
  · have hsame : (replaceFirst q (q, b) (m l)).countP (fun x => x.1 = r) =
        (m l).countP fun x => x.1 = r := by
      simpa [List.countP_map, Function.comp_def] using
        congrArg (List.countP fun a => a = r) (replaceFirst_map_fst q b (m l))
    have := hm r
    omega
  · have hle := replaceFirst_countP_le p (q, b) (m l) fun x => x.1 = r
    by_cases hqr : q = r
    · subst hqr
      have := Model.count_eq_zero hq
      simp at hle
      omega
    · have := hm r
      simp [hqr] at hle
      omega

theorem Model.TrackedOnce.model {c : Call k} {r : Ret} (hc : c.Legal m r) :
    (c.model m r).TrackedOnce := by
  cases c <;> cases r <;> simp only [Call.Legal] at hc
  case malloc.ptr bytes head _ q =>
    by_cases hq : q = NULL
    · simpa [Call.model, hq] using hm
    · simpa [Call.model, hq] using hm.push head (hc.resolve_left hq) bytes
  case realloc.ptr p bytes head q =>
    by_cases hq : q = NULL
    · simpa [Call.model, hq] using hm
    · by_cases hp : p = NULL
      · simp only [hq, hp, if_true, false_or] at hc
        simpa [Call.model, hq, hp] using hm.push head hc bytes
      · simp only [hq, hp, if_false, false_or] at hc
        simpa [Call.model, hq, hp] using hm.replace head hc.2 bytes
  all_goals first
    | exact hm
    | exact Model.TrackedOnce.update hm (List.eraseP_sublist _)
    | exact Model.TrackedOnce.update hm (List.nil_sublist _)

theorem Model.TrackedOnce.ofCalls {hist : List (Call k × Ret)} (h : m.Legal hist) :
    (m.ofCalls hist).TrackedOnce := by
  induction hist generalizing m with
  | nil => exact hm
  | cons cr hist ih =>
    obtain ⟨c, r⟩ := cr
    exact ih (hm.model h.1) h.2

end

theorem Model.trackedOnce_empty : (Model.empty : Model k).TrackedOnce := fun q => by
  simp [Model.count, Model.empty]

end DynamicMemory
