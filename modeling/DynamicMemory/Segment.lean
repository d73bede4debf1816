import DynamicMemory.Code

/-!
# Doubly linked segments

`DSeg rec x p ns y q`: walking `nextElement` from `x` meets the records `ns`, the first with
`previousElement = p` and each later one pointing back to the one before it; the last is `q`
and points on to `y`. A list is a segment from its head with `NULL` at both ends.

The walks of the code follow a segment to its end within `walkFuel` steps, and the two list
updates (`pushFront`, `unlink`) turn a segment into a segment; only link fields change.
-/

namespace DynamicMemory

variable {k : Nat}

abbrev Records := Ptr → Option MemoryTable

def DSeg (rec : Records) : Ptr → Ptr → List Ptr → Ptr → Ptr → Prop
  | x, p, [], y, q => x = y ∧ p = q
  | x, p, n :: ns, y, q =>
    x = n ∧ n ≠ NULL ∧ ∃ e, rec n = some e ∧ e.previousElement = p ∧
      DSeg rec e.nextElement n ns y q

/-- The list from `head` is `ns`: a segment with `NULL` before its first and after its last
record. -/
def Seg (rec : Records) (head : Ptr) (ns : List Ptr) : Prop := ∃ q, DSeg rec head NULL ns NULL q

def MemoryTable.links (e : MemoryTable) : Ptr × Ptr := (e.nextElement, e.previousElement)

def MemoryTable.entry (e : MemoryTable) : Ptr × UInt64 := (e.address, e.size)

def Globals.addressOf (g : Globals k) (n : Ptr) : Ptr := ((g.records n).map (·.address)).getD NULL

def Globals.recordsOn (g : Globals k) (ns : List Ptr) : List MemoryTable := ns.filterMap g.records

/-- The entries of the list model that the records at `ns` stand for. -/
def Globals.entries (g : Globals k) (ns : List Ptr) : List (Ptr × UInt64) :=
  (g.recordsOn ns).map MemoryTable.entry

def Globals.weight (L : Layout) (g : Globals k) (ns : List Ptr) : UInt64 :=
  ((g.recordsOn ns).map fun e => e.size + L.tableSize).sum

variable {rec rec' : Records} {x p y q : Ptr} {ns ms : List Ptr}

@[simp] theorem dseg_nil : DSeg rec x p [] y q ↔ x = y ∧ p = q := Iff.rfl

@[simp] theorem dseg_cons {n : Ptr} : DSeg rec x p (n :: ns) y q ↔ x = n ∧ n ≠ NULL ∧
    ∃ e, rec n = some e ∧ e.previousElement = p ∧ DSeg rec e.nextElement n ns y q := Iff.rfl

theorem DSeg.append :
    DSeg rec x p (ns ++ ms) y q ↔ ∃ z r, DSeg rec x p ns z r ∧ DSeg rec z r ms y q := by
  induction ns generalizing x p with
  | nil =>
    exact ⟨fun h => ⟨x, p, ⟨rfl, rfl⟩, h⟩, fun ⟨_, _, ⟨h₁, h₂⟩, h⟩ => h₁ ▸ h₂ ▸ h⟩
  | cons n ns ih =>
    simp only [List.cons_append, dseg_cons, ih]
    constructor
    · rintro ⟨rfl, hn, e, he, hp, z, r, h₁, h₂⟩
      exact ⟨z, r, ⟨rfl, hn, e, he, hp, h₁⟩, h₂⟩
    · rintro ⟨z, r, ⟨rfl, hn, e, he, hp, h₁⟩, h₂⟩
      exact ⟨rfl, hn, e, he, hp, z, r, h₁, h₂⟩

theorem DSeg.frame (h : DSeg rec x p ns y q)
    (hr : ∀ n ∈ ns, (rec' n).map MemoryTable.links = (rec n).map MemoryTable.links) :
    DSeg rec' x p ns y q := by
  induction ns generalizing x p with
  | nil => exact h
  | cons n ns ih =>
    obtain ⟨rfl, hn, e, he, hp, hs⟩ := h
    have hl := hr x (List.mem_cons_self _ _)
    rw [he] at hl
    obtain ⟨e', he', hl'⟩ := Option.map_eq_some'.mp hl
    simp only [MemoryTable.links, Prod.mk.injEq] at hl'
    exact ⟨rfl, hn, e', he', hl'.2 ▸ hp,
      hl'.1 ▸ ih hs fun m hm => hr m (List.mem_cons_of_mem _ hm)⟩

theorem DSeg.frame_eq (h : DSeg rec x p ns y q) (hr : ∀ n ∈ ns, rec' n = rec n) :
    DSeg rec' x p ns y q :=
  h.frame fun n hn => by rw [hr n hn]

theorem DSeg.ne_null (h : DSeg rec x p ns y q) {n : Ptr} (hn : n ∈ ns) : n ≠ NULL := by
  induction ns generalizing x p with
  | nil => simp at hn
  | cons m ns ih =>
    obtain ⟨rfl, hm, e, -, -, hs⟩ := h
    rcases List.mem_cons.mp hn with rfl | hn
    · exact hm
    · exact ih hs hn

theorem DSeg.isSome (h : DSeg rec x p ns y q) {n : Ptr} (hn : n ∈ ns) : (rec n).isSome := by
  induction ns generalizing x p with
  | nil => simp at hn
  | cons m ns ih =>
    obtain ⟨rfl, -, e, he, -, hs⟩ := h
    rcases List.mem_cons.mp hn with rfl | hn
    · simp [he]
    · exact ih hs hn

theorem DSeg.nil_or (h : DSeg rec x p ns y q) :
    (ns = [] ∧ x = y ∧ p = q) ∨ (x ∈ ns ∧ q ∈ ns) := by
  induction ns generalizing x p with
  | nil => exact .inl ⟨rfl, h⟩
  | cons n ns ih =>
    obtain ⟨rfl, -, e, -, -, hs⟩ := h
    refine .inr ⟨List.mem_cons_self _ _, ?_⟩
    rcases ih hs with ⟨rfl, -, rfl⟩ | ⟨-, hq⟩
    · exact List.mem_cons_self _ _
    · exact List.mem_cons_of_mem _ hq

theorem DSeg.next_mem (h : DSeg rec x p ns y q) {a : Ptr} (ha : a ∈ ns) :
    ∃ e, rec a = some e ∧ (e.nextElement ∈ ns ∨ e.nextElement = y) := by
  induction ns generalizing x p with
  | nil => simp at ha
  | cons n ns ih =>
    obtain ⟨rfl, -, e, he, -, hs⟩ := h
    rcases List.mem_cons.mp ha with rfl | ha
    · refine ⟨e, he, ?_⟩
      rcases hs.nil_or with ⟨-, hy, -⟩ | ⟨hx, -⟩
      · exact .inr hy
      · exact .inl (List.mem_cons_of_mem _ hx)
    · obtain ⟨e', he', hn⟩ := ih hs ha
      exact ⟨e', he', hn.imp_left (List.mem_cons_of_mem _)⟩

theorem DSeg.prev_mem (h : DSeg rec x p ns y q) {a : Ptr} (ha : a ∈ ns) :
    ∃ e, rec a = some e ∧ (e.previousElement ∈ ns ∨ e.previousElement = p) := by
  induction ns generalizing x p with
  | nil => simp at ha
  | cons n ns ih =>
    obtain ⟨rfl, -, e, he, hp, hs⟩ := h
    rcases List.mem_cons.mp ha with rfl | ha
    · exact ⟨e, he, .inr hp⟩
    · obtain ⟨e', he', hn⟩ := ih hs ha
      exact ⟨e', he', hn.elim (fun h => .inl (List.mem_cons_of_mem _ h))
        (fun h => .inl (h ▸ List.mem_cons_self _ _))⟩

theorem DSeg.prev_eq_iff (h : DSeg rec x p ns y q) (hnd : ns.Nodup) (hp : p ∉ ns) {b : Ptr}
    (hb : b ∈ ns) : (rec b).map MemoryTable.previousElement = some p ↔ b = x := by
  cases ns with
  | nil => simp at hb
  | cons n ns =>
    obtain ⟨rfl, -, e, he, hpe, hs⟩ := h
    rw [List.nodup_cons] at hnd
    rcases List.mem_cons.mp hb with rfl | hb'
    · simp [he, hpe]
    · obtain ⟨e', he', hprev⟩ := hs.prev_mem hb'
      simp only [he', Option.map_some', Option.some.injEq]
      constructor
      · rintro rfl
        rcases hprev with hprev | hprev
        · exact absurd (List.mem_cons_of_mem _ hprev) hp
        · exact absurd (hprev ▸ List.mem_cons_self _ _) hp
      · rintro rfl; exact absurd hb' hnd.1

theorem DSeg.next_iff_prev (h : DSeg rec x p ns y q) (hnd : ns.Nodup) (hp : p ∉ ns) (hy : y ∉ ns)
    {a b : Ptr} (ha : a ∈ ns) (hb : b ∈ ns) :
    (rec a).map MemoryTable.nextElement = some b ↔
      (rec b).map MemoryTable.previousElement = some a := by
  induction ns generalizing x p with
  | nil => simp at ha
  | cons n ns ih =>
    obtain ⟨rfl, -, e, he, hpe, hs⟩ := h
    rw [List.nodup_cons] at hnd
    simp only [List.mem_cons, not_or] at hp hy
    have hne : e.nextElement ≠ x := by
      rcases hs.nil_or with ⟨-, hy', -⟩ | ⟨hx, -⟩
      · rw [hy']; exact hy.1
      · exact ne_of_mem_of_not_mem hx hnd.1
    rcases List.mem_cons.mp ha with rfl | ha' <;> rcases List.mem_cons.mp hb with rfl | hb'
    · simp [he, hpe, hne, hp.1]
    · rw [hs.prev_eq_iff hnd.2 hnd.1 hb']
      simp [he, eq_comm]
    · obtain ⟨e', he', hnext⟩ := hs.next_mem ha'
      simp only [he, he', Option.map_some', Option.some.injEq, hpe]
      constructor
      · rintro rfl
        rcases hnext with hnext | hnext
        · exact absurd hnext hnd.1
        · exact absurd hnext.symm hy.1
      · rintro rfl; exact absurd ha' hp.2
    · exact ih hs hnd.2 hnd.1 hy.2 ha' hb'

-- ---------------------------------------------------------------------------
-- What the records of a list stand for
-- ---------------------------------------------------------------------------

def Globals.blocksOf (g : Globals k) (ns : List Ptr) : List Ptr :=
  ns.flatMap fun n => [g.addressOf n, n]

def Globals.releaseAll (g : Globals k) (ps : List Ptr) : Globals k := ps.foldl Globals.release g

section congr
variable {g g' : Globals k} (hr : ∀ m ∈ ns, g'.records m = g.records m)
include hr

theorem Globals.recordsOn_congr : g'.recordsOn ns = g.recordsOn ns := List.filterMap_congr hr

theorem Globals.blocksOf_congr : g'.blocksOf ns = g.blocksOf ns :=
  List.flatMap_congr fun m hm => by simp [Globals.addressOf, hr m hm]

theorem Globals.weight_congr (L : Layout) : g'.weight L ns = g.weight L ns := by
  simp only [Globals.weight, Globals.recordsOn_congr hr]

theorem Globals.entries_congr : g'.entries ns = g.entries ns := by
  simp only [Globals.entries, Globals.recordsOn_congr hr]

end congr

theorem Globals.entries_append (g : Globals k) (ns ms : List Ptr) :
    g.entries (ns ++ ms) = g.entries ns ++ g.entries ms := by
  simp [Globals.entries, Globals.recordsOn, List.filterMap_append]

theorem Globals.entries_ne {g : Globals k} {p : Ptr} (h : ∀ n ∈ ns, g.addressOf n ≠ p) :
    ∀ y ∈ g.entries ns, y.1 ≠ p := by
  intro y hy
  obtain ⟨e, he, rfl⟩ := List.mem_map.mp hy
  obtain ⟨n, hn, hen⟩ := List.mem_filterMap.mp he
  have := h n hn
  simp_all [Globals.addressOf, MemoryTable.entry]

theorem Globals.recordsOn_cons {g : Globals k} {n : Ptr} {e : MemoryTable}
    (he : g.records n = some e) : g.recordsOn (n :: ns) = e :: g.recordsOn ns := by
  simp [Globals.recordsOn, he]

theorem Globals.entries_cons {g : Globals k} {n : Ptr} {e : MemoryTable}
    (he : g.records n = some e) : g.entries (n :: ns) = e.entry :: g.entries ns := by
  simp [Globals.entries, Globals.recordsOn_cons he]

theorem Globals.weight_cons {g : Globals k} (L : Layout) {n : Ptr} {e : MemoryTable}
    (he : g.records n = some e) : g.weight L (n :: ns) = e.size + L.tableSize + g.weight L ns := by
  simp [Globals.weight, Globals.recordsOn_cons he]

theorem mem_blocksOf_self {g : Globals k} {n : Ptr} (hn : n ∈ ns) : n ∈ g.blocksOf ns :=
  List.mem_flatMap.mpr ⟨n, hn, by simp⟩

theorem mem_blocksOf_address {g : Globals k} {n : Ptr} (hn : n ∈ ns) :
    g.addressOf n ∈ g.blocksOf ns :=
  List.mem_flatMap.mpr ⟨n, hn, by simp⟩

theorem Globals.blocksOf_cons (g : Globals k) (n : Ptr) (ns : List Ptr) :
    g.blocksOf (n :: ns) = g.addressOf n :: n :: g.blocksOf ns := rfl

theorem Globals.blocksOf_append (g : Globals k) (ns ms : List Ptr) :
    g.blocksOf (ns ++ ms) = g.blocksOf ns ++ g.blocksOf ms := List.flatMap_append ..

theorem Globals.nodup_of_blocksOf {g : Globals k} (h : (g.blocksOf ns).Nodup) : ns.Nodup := by
  induction ns with
  | nil => exact List.nodup_nil
  | cons n ns ih =>
    rw [Globals.blocksOf_cons, List.nodup_cons, List.nodup_cons] at h
    exact List.nodup_cons.mpr ⟨fun hn => h.2.1 (mem_blocksOf_self hn), ih h.2.2⟩

theorem Globals.ne_addressOf {g : Globals k} (h : (g.blocksOf ns).Nodup) {x y : Ptr}
    (hx : x ∈ ns) (hy : y ∈ ns) : x ≠ g.addressOf y := by
  induction ns with
  | nil => simp at hx
  | cons n ns ih =>
    rw [Globals.blocksOf_cons, List.nodup_cons, List.nodup_cons, List.mem_cons, not_or] at h
    obtain ⟨⟨hn₁, hn₂⟩, hn₃, hnd⟩ := h
    rcases List.mem_cons.mp hx with rfl | hx' <;> rcases List.mem_cons.mp hy with rfl | hy'
    · exact Ne.symm hn₁
    · exact fun h => hn₃ (h ▸ mem_blocksOf_address hy')
    · exact fun h => hn₂ (h ▸ mem_blocksOf_self hx')
    · exact ih hnd hx' hy'

def Globals.SameEntries (g' g : Globals k) : Prop :=
  ∀ p, (g'.records p).map MemoryTable.entry = (g.records p).map MemoryTable.entry

section same
variable {g g' : Globals k} (hs : g'.SameEntries g)
include hs

theorem Globals.SameEntries.addressOf (p : Ptr) : g'.addressOf p = g.addressOf p := by
  have := hs p
  cases h' : g'.records p <;> cases h : g.records p <;>
    simp_all [Globals.addressOf, MemoryTable.entry]

theorem Globals.SameEntries.blocksOf (ns : List Ptr) : g'.blocksOf ns = g.blocksOf ns :=
  List.flatMap_congr fun n _ => by simp [hs.addressOf n]

theorem Globals.SameEntries.entries (ns : List Ptr) : g'.entries ns = g.entries ns := by
  induction ns with
  | nil => rfl
  | cons n ns ih =>
    have := hs n
    cases h' : g'.records n <;> cases h : g.records n <;>
      simp_all [Globals.entries, Globals.recordsOn]

end same

-- ---------------------------------------------------------------------------
-- The walks
-- ---------------------------------------------------------------------------

theorem findAddress_dseg {g : Globals k} (h : DSeg g.records x p ns NULL q) {fuel : Nat}
    (hf : ns.length < fuel) (a : Ptr) :
    findAddress g a fuel x = some ((ns.find? fun n => g.addressOf n = a).getD NULL) := by
  induction ns generalizing x p fuel with
  | nil =>
    obtain ⟨rfl, -⟩ := h
    obtain ⟨f, rfl⟩ : ∃ f, fuel = f + 1 := ⟨fuel - 1, by simp at hf; omega⟩
    simp [findAddress]
  | cons n ns ih =>
    obtain ⟨rfl, hn, e, he, -, hs⟩ := h
    obtain ⟨f, rfl⟩ : ∃ f, fuel = f + 1 := ⟨fuel - 1, by simp at hf; omega⟩
    have hea : g.addressOf x = e.address := by simp [Globals.addressOf, he]
    simp only [findAddress, hn, if_false, he, List.find?_cons, hea]
    split <;> simp_all [ih hs (by simpa using hf)]

theorem dumpLoop_dseg {g : Globals k} (L : Layout) (h : DSeg g.records x p ns NULL q)
    {fuel : Nat} (hf : ns.length < fuel) (acc : UInt64) :
    dumpLoop L g fuel x acc = some (g.recordsOn ns, acc + g.weight L ns) := by
  induction ns generalizing x p fuel acc with
  | nil =>
    obtain ⟨rfl, -⟩ := h
    obtain ⟨f, rfl⟩ : ∃ f, fuel = f + 1 := ⟨fuel - 1, by simp at hf; omega⟩
    simp [dumpLoop, Globals.recordsOn, Globals.weight]
  | cons n ns ih =>
    obtain ⟨rfl, hn, e, he, -, hs⟩ := h
    obtain ⟨f, rfl⟩ : ∃ f, fuel = f + 1 := ⟨fuel - 1, by simp at hf; omega⟩
    simp only [dumpLoop, hn, if_false, he, ih hs (by simpa using hf), Option.map_some',
      Globals.recordsOn_cons he, Globals.weight_cons L he, add_assoc]

theorem sysFree_live {g : Globals k} {p : Ptr} (hp : p ∈ g.live) (hn : p ≠ NULL) :
    sysFree g p = some (g.release p) := by
  simp [sysFree, hp, hn]

theorem freeAllLoop_dseg {g : Globals k} (L : Layout) (h : DSeg g.records x p ns NULL q)
    {fuel : Nat} (hf : ns.length < fuel) (hl : ∀ b ∈ g.blocksOf ns, b ∈ g.live)
    (hnull : NULL ∉ g.live) (hnd : (g.blocksOf ns).Nodup) (acc : UInt64) :
    freeAllLoop L fuel g x acc = some (g.releaseAll (g.blocksOf ns), acc + g.weight L ns) := by
  induction ns generalizing g x p fuel acc with
  | nil =>
    obtain ⟨rfl, -⟩ := h
    obtain ⟨f, rfl⟩ : ∃ f, fuel = f + 1 := ⟨fuel - 1, by simp at hf; omega⟩
    simp [freeAllLoop, Globals.releaseAll, Globals.blocksOf, Globals.weight, Globals.recordsOn]
  | cons n ns ih =>
    obtain ⟨rfl, hn, e, he, -, hs⟩ := h
    obtain ⟨f, rfl⟩ : ∃ f, fuel = f + 1 := ⟨fuel - 1, by simp at hf; omega⟩
    have hb : g.blocksOf (x :: ns) = e.address :: x :: g.blocksOf ns := by
      simp [Globals.blocksOf, Globals.addressOf, he]
    rw [hb] at hl hnd ⊢
    simp only [List.mem_cons, forall_eq_or_imp] at hl
    simp only [List.nodup_cons, List.mem_cons, not_or] at hnd
    obtain ⟨⟨hax, ha⟩, hx, hnd⟩ := hnd
    have hns : ∀ m ∈ ns, m ≠ x ∧ m ≠ e.address := fun m hm =>
      ⟨fun h => hx (h ▸ mem_blocksOf_self hm), fun h => ha (h ▸ mem_blocksOf_self hm)⟩
    set g₂ := (g.release e.address).release x
    have hr : ∀ m ∈ ns, g₂.records m = g.records m := fun m hm => by
      simp [g₂, Function.update_noteq (hns m hm).1, Function.update_noteq (hns m hm).2]
    have hfree : sysFree g e.address = some (g.release e.address) :=
      sysFree_live hl.1 fun h => hnull (h ▸ hl.1)
    have hfree₂ : sysFree (g.release e.address) x = some g₂ :=
      sysFree_live (by simp [Ne.symm hax, hl.2.1]) hn
    rw [← Globals.blocksOf_congr hr] at hl hnd hx ha
    have := ih (hs.frame_eq hr) (show ns.length < f by simpa using hf)
      (fun b hb => by
        have := hl.2.2 b hb
        simp only [g₂, Globals.release_live, Finset.mem_erase]
        exact ⟨fun h => hx (h ▸ hb), fun h => ha (h ▸ hb), this⟩)
      (by simp [g₂, hnull]) hnd (acc + (e.size + L.tableSize))
    simp only [freeAllLoop, hn, if_false, he, hfree, hfree₂, Option.bind_eq_bind, Option.some_bind,
      this, Globals.blocksOf_congr hr, Globals.weight_congr hr, Globals.weight_cons L he, add_assoc]
    rfl

-- ---------------------------------------------------------------------------
-- The list updates
-- ---------------------------------------------------------------------------

theorem Globals.setNext_of_some {g : Globals k} {p : Ptr} {e : MemoryTable}
    (he : g.records p = some e) (v : Ptr) :
    g.setNext p v =
      some { g with records := Function.update g.records p (some { e with nextElement := v }) } :=
  Globals.modify_of_some he _

theorem Globals.setPrev_of_some {g : Globals k} {p : Ptr} {e : MemoryTable}
    (he : g.records p = some e) (v : Ptr) :
    g.setPrev p v =
      some { g with records := Function.update g.records p (some { e with previousElement := v }) } :=
  Globals.modify_of_some he _

theorem DSeg.setFirstPrev {n : Ptr} {e : MemoryTable} (h : DSeg rec x p (n :: ns) y q)
    (hx : n ∉ ns) (he : rec n = some e) (p' : Ptr) :
    DSeg (Function.update rec n (some { e with previousElement := p' })) x p' (n :: ns) y q := by
  obtain ⟨rfl, hn, e', he', -, hs⟩ := h
  rw [he] at he'
  cases he'
  exact ⟨rfl, hn, _, Function.update_same .., rfl,
    hs.frame_eq fun m hm => Function.update_noteq (ne_of_mem_of_not_mem hm hx) ..⟩

theorem DSeg.setLastNext {e : MemoryTable} (h : DSeg rec x p ns y q) (hne : ns ≠ [])
    (hnd : ns.Nodup) (he : rec q = some e) (y' : Ptr) :
    DSeg (Function.update rec q (some { e with nextElement := y' })) x p ns y' q := by
  induction ns generalizing x p with
  | nil => exact absurd rfl hne
  | cons n ns ih =>
    obtain ⟨rfl, hn, e', he', hp, hs⟩ := h
    rcases hs.nil_or with ⟨rfl, -, rfl⟩ | ⟨-, hq⟩
    · obtain ⟨-, -⟩ := hs
      rw [he] at he'
      cases he'
      exact ⟨rfl, hn, _, Function.update_same .., hp, rfl, rfl⟩
    · have hqx : x ≠ q := fun h => (List.nodup_cons.mp hnd).1 (h ▸ hq)
      refine ⟨rfl, hn, e', by rw [Function.update_noteq hqx]; exact he', hp, ?_⟩
      exact ih hs (List.ne_nil_of_mem hq) (List.nodup_cons.mp hnd).2


theorem entry_update_links {rec : Records} {p : Ptr} {e : MemoryTable}
    (he : rec p = some e) (e' : MemoryTable) (h : e'.entry = e.entry) (m : Ptr) :
    (Function.update rec p (some e') m).map MemoryTable.entry = (rec m).map MemoryTable.entry := by
  by_cases hm : m = p
  · subst hm; simp [he, h]
  · rw [Function.update_noteq hm]

theorem unlink_seg {g : Globals k} {l : Fin k} {found : Ptr} {pre post : List Ptr}
    (hs : Seg g.records (g.heads l) (pre ++ found :: post)) (hnd : (pre ++ found :: post).Nodup) :
    ∃ rec' h', unlink g l found =
        some { g with records := rec', heads := Function.update g.heads l h' } ∧
      Seg rec' h' (pre ++ post) ∧ (∀ m, m ∉ pre ++ post → rec' m = g.records m) ∧
      ∀ m, (rec' m).map MemoryTable.entry = (g.records m).map MemoryTable.entry := by
  obtain ⟨qq, hd⟩ := hs
  obtain ⟨z₀, r, hpre, ⟨rfl, hfn, e, he, hr, hpost⟩⟩ := DSeg.append.mp hd
  simp only [List.nodup_append, List.nodup_cons, List.disjoint_cons_right] at hnd
  obtain ⟨hndpre, ⟨hfpost, hndpost⟩, hfpre, hdisj⟩ := hnd
  generalize hz : e.nextElement = z at hpost
  rcases hpre.nil_or with ⟨rfl, hx, rfl⟩ | ⟨hxpre, hrpre⟩ <;>
  rcases hpost.nil_or with ⟨rfl, rfl, rfl⟩ | ⟨hzpost, -⟩
  · -- the only record
    refine ⟨g.records, NULL, ?_, ⟨NULL, rfl, rfl⟩, fun _ _ => rfl, fun _ => rfl⟩
    simp [unlink, he, hr, hz, hx]; rfl
  · -- the first of several
    cases post with
    | nil => simp at hzpost
    | cons n post =>
    obtain ⟨rfl, hzn, ez, hez, -, -⟩ := id hpost
    have hzf : z ≠ z₀ := fun h => hfpost (h ▸ hzpost)
    refine ⟨Function.update g.records z (some { ez with previousElement := NULL }), z, ?_,
      ⟨qq, hpost.setFirstPrev (List.nodup_cons.mp hndpost).1 hez NULL⟩,
      fun m hm => Function.update_noteq (fun h => hm (by simp [h])) _ _,
      entry_update_links hez _ rfl⟩
    simp [unlink, he, hr, hz, hzn, hx, Globals.setPrev_of_some hez, Function.update_noteq hzf.symm]
    rfl
  · -- the last of several
    obtain ⟨er, her⟩ := Option.isSome_iff_exists.mp (hpre.isSome hrpre)
    have hrn := hpre.ne_null hrpre
    have hrf : r ≠ z₀ := fun h => hfpre (h ▸ hrpre)
    have hhf : g.heads l ≠ z₀ := fun h => hfpre (h ▸ hxpre)
    refine ⟨Function.update g.records r (some { er with nextElement := NULL }), g.heads l, ?_,
      ⟨r, by simpa using hpre.setLastNext (List.ne_nil_of_mem hrpre) hndpre her NULL⟩,
      fun m hm => Function.update_noteq (fun h => hm (by simp [h, hrpre])) _ _,
      entry_update_links her _ rfl⟩
    simp [unlink, he, hr, hz, hrn, hhf.symm, Globals.setNext_of_some her,
      Function.update_noteq hrf.symm]
  · -- in the middle
    cases post with
    | nil => simp at hzpost
    | cons n post =>
    obtain ⟨rfl, hzn, ez, hez, -, -⟩ := id hpost
    obtain ⟨er, her⟩ := Option.isSome_iff_exists.mp (hpre.isSome hrpre)
    have hrn := hpre.ne_null hrpre
    have hrf : r ≠ z₀ := fun h => hfpre (h ▸ hrpre)
    have hzf : z ≠ z₀ := fun h => hfpost (h ▸ hzpost)
    have hhf : g.heads l ≠ z₀ := fun h => hfpre (h ▸ hxpre)
    have hpost_r : ∀ m ∈ z :: post, m ≠ r := fun m hm h => hdisj hrpre (h ▸ hm)
    have hpre_z : ∀ m ∈ pre, m ≠ z := fun m hm h => hdisj hm (h ▸ hzpost)
    let g₁ : Globals k :=
      { g with records := Function.update g.records r (some { er with nextElement := z }) }
    have hez₁ : g₁.records z = some ez := by
      simp only [g₁, Function.update_noteq (hpost_r z hzpost)]; exact hez
    refine ⟨Function.update g₁.records z (some { ez with previousElement := r }), g.heads l, ?_,
      ⟨qq, DSeg.append.mpr ⟨z, r,
        (hpre.setLastNext (List.ne_nil_of_mem hrpre) hndpre her z).frame_eq
          fun m hm => Function.update_noteq (hpre_z m hm) _ _,
        ((hpost.frame_eq fun m hm => Function.update_noteq (hpost_r m hm) _ _).setFirstPrev
          (List.nodup_cons.mp hndpost).1 hez₁ r)⟩⟩, ?_,
      fun m => (entry_update_links hez₁ { ez with previousElement := r } rfl m).trans
        (entry_update_links her { er with nextElement := z } rfl m)⟩
    · simp [unlink, he, hr, hz, hrn, hzn, hhf.symm, Globals.setNext_of_some her,
        Globals.setPrev_of_some hez₁, Function.update_noteq hrf.symm, Function.update_noteq hzf.symm]
    · intro m hm
      simp only [List.mem_append, List.mem_cons, not_or] at hm
      simp only [g₁, Function.update_noteq hm.2.1,
        Function.update_noteq (ne_of_mem_of_not_mem hrpre hm.1).symm]

theorem pushFront_seg {g : Globals k} {l : Fin k} {newItem : Ptr} {e : MemoryTable}
    (hs : Seg g.records (g.heads l) ns) (hnd : ns.Nodup) (hn : newItem ∉ ns)
    (hnn : newItem ≠ NULL) (he : g.records newItem = some e) :
    ∃ rec', pushFront g l newItem =
        some { g with records := rec', heads := Function.update g.heads l newItem } ∧
      Seg rec' newItem (newItem :: ns) ∧ (∀ m, m ∉ newItem :: ns → rec' m = g.records m) ∧
      ∀ m, (rec' m).map MemoryTable.entry = (g.records m).map MemoryTable.entry := by
  obtain ⟨qq, hd⟩ := hs
  let e' : MemoryTable := { e with nextElement := g.heads l, previousElement := NULL }
  have hentry : ∀ m, (Function.update g.records newItem (some e') m).map MemoryTable.entry =
      (g.records m).map MemoryTable.entry := entry_update_links he _ rfl
  rcases hd.nil_or with ⟨rfl, hh, rfl⟩ | ⟨hhns, -⟩
  · -- onto an empty list
    refine ⟨Function.update g.records newItem (some e'), ?_,
      ⟨newItem, rfl, hnn, e', Function.update_same .., rfl, hh, rfl⟩,
      fun m hm => Function.update_noteq (by simpa using hm) _ _, hentry⟩
    simp [pushFront, Globals.setNext_of_some he, Globals.setPrev_of_some, hh, e']
    rfl
  · -- in front of a first record
    cases ns with
    | nil => simp at hhns
    | cons n ns =>
    obtain ⟨hfirst, -, eh, heh, -, -⟩ := id hd
    have hne : g.heads l ≠ newItem := fun h => hn (h ▸ hhns)
    have hr₁ : ∀ m ∈ n :: ns, Function.update g.records newItem (some e') m = g.records m :=
      fun m hm => Function.update_noteq (ne_of_mem_of_not_mem hm hn) _ _
    have hnN : n ≠ newItem := ne_of_mem_of_not_mem (List.mem_cons_self _ _) hn
    have heh₁ : Function.update g.records newItem (some e') n = some eh := by
      rw [Function.update_noteq hnN]; exact heh
    refine ⟨Function.update (Function.update g.records newItem (some e')) n
      (some { eh with previousElement := newItem }), ?_, ⟨qq, rfl, hnn, e',
        by rw [Function.update_noteq hnN.symm, Function.update_same], rfl,
        (hd.frame_eq hr₁).setFirstPrev (List.nodup_cons.mp hnd).1 heh₁ newItem⟩, ?_,
      fun m => (entry_update_links heh₁ { eh with previousElement := newItem } rfl m).trans
        (hentry m)⟩
    · subst hfirst
      simp [pushFront, Globals.setNext_of_some he, Globals.setPrev_of_some, hd.ne_null
        (List.mem_cons_self _ _), Function.update_noteq hnN, heh, e']
      rfl
    · intro m hm
      simp only [List.mem_cons, not_or] at hm
      rw [Function.update_noteq hm.2.1, Function.update_noteq hm.1]

end DynamicMemory
