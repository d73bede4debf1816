import Mathlib.Data.Finset.Card
import Mathlib.Logic.Function.Basic
import Mathlib.Data.UInt
import Mathlib.Data.String.Basic

/-!
# Memory of the tracked allocator

The state `dynamicMemory.c` works on: the global counter and the `initialized` flag of
`DYNMEM_Init`, one head variable per list, the node records, and the blocks the system
allocator holds live for the module. The allocator is part of the environment: each of its
calls is answered from outside, and an answer that no allocator could give (a block that is
still live, or `NULL` as a block) is read as `NULL`.
-/

namespace DynamicMemory

theorem UInt64.eq_zero_of_not_pos {d : UInt64} (h : ¬ 0 < d) : d = 0 := by
  rw [UInt64.not_lt, UInt64.le_def] at h
  exact UInt64.eq_of_toBitVec_eq (BitVec.le_antisymm h (by simp [BitVec.le_def]))

theorem UInt64.le_iff_toNat_le {a b : UInt64} : a ≤ b ↔ a.toNat ≤ b.toNat := by
  rw [UInt64.le_def, BitVec.le_def]; rfl

/-- A C pointer; `0` is `NULL`. -/
abbrev Ptr := Nat

abbrev NULL : Ptr := 0

/-- The two sizes `dynamicMemory.h` fixes; the header is not in the sources. -/
structure Layout where
  /-- `sizeof(DYNMEM_MemoryTable_DataType)` -/
  tableSize : UInt64
  /-- `sizeof(newItem->theName)` -/
  nameSize : Nat

/-- `DYNMEM_MemoryTable_DataType`: the record of one tracked block. -/
structure MemoryTable where
  address : Ptr
  size : UInt64
  theName : String
  nextElement : Ptr
  previousElement : Ptr
  deriving DecidableEq, Repr

def MemoryTable.zero : MemoryTable := ⟨NULL, 0, "", NULL, NULL⟩

/-- The module's globals and the memory it reaches, for `k` list head variables. `records p`
is the record stored at `p`, if `p` holds one; `live` are the blocks the allocator holds live. -/
structure Globals (k : Nat) where
  theTotalMemory : UInt64
  initialized : Bool
  heads : Fin k → Ptr
  records : Ptr → Option MemoryTable
  live : Finset Ptr

variable {k : Nat}

/-- Program load: the static initialisers, every list head `NULL`, nothing allocated. -/
def Globals.load : Globals k := ⟨0, false, fun _ => NULL, fun _ => none, ∅⟩

-- ---------------------------------------------------------------------------
-- Records and list heads
-- ---------------------------------------------------------------------------

def Globals.modify (g : Globals k) (p : Ptr) (f : MemoryTable → MemoryTable) :
    Option (Globals k) :=
  (g.records p).map fun e => { g with records := Function.update g.records p (some (f e)) }

def Globals.setNext (g : Globals k) (p v : Ptr) : Option (Globals k) :=
  g.modify p fun e => { e with nextElement := v }

def Globals.setPrev (g : Globals k) (p v : Ptr) : Option (Globals k) :=
  g.modify p fun e => { e with previousElement := v }

def Globals.setHead (g : Globals k) (l : Fin k) (v : Ptr) : Globals k :=
  { g with heads := Function.update g.heads l v }

@[simp] theorem Globals.setHead_theTotalMemory (g : Globals k) (l : Fin k) (v : Ptr) :
    (g.setHead l v).theTotalMemory = g.theTotalMemory := rfl

@[simp] theorem Globals.setHead_initialized (g : Globals k) (l : Fin k) (v : Ptr) :
    (g.setHead l v).initialized = g.initialized := rfl

@[simp] theorem Globals.setHead_heads (g : Globals k) (l : Fin k) (v : Ptr) :
    (g.setHead l v).heads = Function.update g.heads l v := rfl

@[simp] theorem Globals.setHead_records (g : Globals k) (l : Fin k) (v : Ptr) :
    (g.setHead l v).records = g.records := rfl

@[simp] theorem Globals.setHead_live (g : Globals k) (l : Fin k) (v : Ptr) :
    (g.setHead l v).live = g.live := rfl

theorem Globals.modify_of_some {g : Globals k} {p : Ptr} {e : MemoryTable}
    (he : g.records p = some e) (f : MemoryTable → MemoryTable) :
    g.modify p f = some { g with records := Function.update g.records p (some (f e)) } := by
  simp [Globals.modify, he]

theorem Globals.modify_eq_some {g g' : Globals k} {p : Ptr} {f : MemoryTable → MemoryTable} :
    g.modify p f = some g' ↔ ∃ e, g.records p = some e ∧
      g' = { g with records := Function.update g.records p (some (f e)) } := by
  simp only [Globals.modify, Option.map_eq_some']
  exact exists_congr fun _ => and_congr_right fun _ => eq_comm

-- ---------------------------------------------------------------------------
-- The system allocator
-- ---------------------------------------------------------------------------

/-- What the system allocator answers to one call. `nullFreeing` is `NULL` after releasing
the block passed in, which glibc answers to `realloc(p, 0)`. -/
inductive Answer
  | block (q : Ptr)
  | null
  | nullFreeing
  deriving DecidableEq, Repr

/-- A block the allocator may hand out: not `NULL` and not live. -/
def Globals.Fresh (g : Globals k) (q : Ptr) : Prop := q ≠ NULL ∧ q ∉ g.live

instance (g : Globals k) (q : Ptr) : Decidable (g.Fresh q) :=
  inferInstanceAs (Decidable (_ ∧ _))

def Globals.alloc (g : Globals k) (q : Ptr) (r : Option MemoryTable) : Globals k :=
  { g with live := insert q g.live, records := Function.update g.records q r }

def Globals.release (g : Globals k) (p : Ptr) : Globals k :=
  { g with live := g.live.erase p, records := Function.update g.records p none }

def Globals.move (g : Globals k) (p q : Ptr) : Globals k :=
  { g with live := insert q (g.live.erase p),
           records := Function.update (Function.update g.records p none) q (g.records p) }

@[simp] theorem Globals.release_live (g : Globals k) (p : Ptr) :
    (g.release p).live = g.live.erase p := rfl

@[simp] theorem Globals.release_records (g : Globals k) (p : Ptr) :
    (g.release p).records = Function.update g.records p none := rfl

@[simp] theorem Globals.release_heads (g : Globals k) (p : Ptr) :
    (g.release p).heads = g.heads := rfl

/-- `calloc`: a fresh zero-filled block holding `r`, or `NULL`. -/
def sysCalloc (g : Globals k) (r : Option MemoryTable) : Answer → Globals k × Ptr
  | .block q => if g.Fresh q then (g.alloc q r, q) else (g, NULL)
  | _ => (g, NULL)

/-- `free`; `none` when `p` is neither `NULL` nor live (a double or wild free). -/
def sysFree (g : Globals k) (p : Ptr) : Option (Globals k) :=
  if p = NULL then some g else if p ∈ g.live then some (g.release p) else none

/-- `realloc(p, bytes)`: the block stays at `p` or moves to a fresh block; on `NULL` it stays
live, unless the allocator released it on `realloc(p, 0)`. `none` when `p` is not live. -/
def sysRealloc (g : Globals k) (p : Ptr) (bytes : UInt64) (a : Answer) :
    Option (Globals k × Ptr) :=
  if p ∉ g.live then none else
  match a with
  | .block q => if q = p then some (g, p) else if g.Fresh q then some (g.move p q, q)
      else some (g, NULL)
  | .null => some (g, NULL)
  | .nullFreeing => some (if bytes = 0 then g.release p else g, NULL)

end DynamicMemory
