import DynamicMemory.Memory

/-!
# `dynamicMemory.c`, one atomic step at a time

Each `DYNMEM_*` call is cut where another thread can run between its parts: the allocator
calls made outside both mutexes, the critical section under `memoryListMutex`, and the
counter update under `memoryCountMutex`. A thread's `Pc` says which part comes next and holds
the locals the rest of the call reads.

The three list walks read records as they go. `none` is undefined behaviour (a read through a
pointer that holds no record, a free of a block that is not live) or a walk that does not
reach `NULL`: a walk gets `live.card + 1` steps, and a longer one over live records visits
some record twice, so the C loop never ends.
-/

namespace DynamicMemory

variable {k : Nat}

/-- A call of `report_error_q`: the message and the last argument. The declaration of
`report_error_q` is not in the sources; the file and line arguments are not kept. -/
structure Report where
  message : String
  flag : Nat
  deriving DecidableEq, Repr

/-- What a call returns. -/
inductive Ret
  | void
  | ptr (p : Ptr)
  | total (v : UInt64)
  deriving DecidableEq, Repr

/-- The module's interface; `head` names the variable `memoryListHead` points to. -/
inductive Call (k : Nat)
  | init
  | getTotalMemory
  | malloc (bytes : UInt64) (head : Fin k) (theName : String)
  | realloc (theMemoryAddress : Ptr) (bytes : UInt64) (head : Fin k)
  | free (f_address : Ptr) (head : Fin k)
  | freeAll (head : Fin k)
  deriving DecidableEq, Repr

inductive MallocStage
  | calloc
  | item (memory : Ptr)
  | rollback (memory : Ptr)
  | link (memory newItem : Ptr)
  | count (memory : Ptr)
  deriving DecidableEq, Repr

inductive ReallocStage
  | listSection
  | count (oldSize : UInt64) (newMemory : Ptr)
  deriving DecidableEq, Repr

inductive FreeStage
  | listSection
  | count (found : Ptr)
  | address (found : Ptr)
  | record (found : Ptr)
  deriving DecidableEq, Repr

inductive FreeAllStage
  | listSection
  | count (totalSizeRemoved : UInt64)
  deriving DecidableEq, Repr

/-- A thread: returned from its last call, or inside one, before the named part. -/
inductive Pc (k : Nat)
  | done (ret : Ret) (report : Option Report)
  | init
  | getTotalMemory
  | malloc (bytes : UInt64) (head : Fin k) (theName : String) (stage : MallocStage)
  | realloc (theMemoryAddress : Ptr) (bytes : UInt64) (head : Fin k) (stage : ReallocStage)
  | free (f_address : Ptr) (head : Fin k) (stage : FreeStage)
  | freeAll (head : Fin k) (stage : FreeAllStage)
  deriving DecidableEq, Repr

-- ---------------------------------------------------------------------------
-- Helper functions
-- ---------------------------------------------------------------------------

def DYNMEM_Init (g : Globals k) : Globals k :=
  if g.initialized then g else { g with theTotalMemory := 0, initialized := true }

@[simp] theorem DYNMEM_Init_heads (g : Globals k) : (DYNMEM_Init g).heads = g.heads := by
  unfold DYNMEM_Init; split <;> rfl

@[simp] theorem DYNMEM_Init_records (g : Globals k) : (DYNMEM_Init g).records = g.records := by
  unfold DYNMEM_Init; split <;> rfl

@[simp] theorem DYNMEM_Init_live (g : Globals k) : (DYNMEM_Init g).live = g.live := by
  unfold DYNMEM_Init; split <;> rfl

@[simp] theorem DYNMEM_Init_initialized (g : Globals k) : (DYNMEM_Init g).initialized = true := by
  unfold DYNMEM_Init; split <;> simp_all

theorem DYNMEM_Init_of_initialized {g : Globals k} (h : g.initialized = true) :
    DYNMEM_Init g = g := by
  simp [DYNMEM_Init, h]

def DYNMEM_GetTotalMemory (g : Globals k) : UInt64 := g.theTotalMemory

def DYNMEM_IncreaseMemoryCounter (g : Globals k) (theSize : UInt64) : Globals k × UInt64 :=
  let g := { g with theTotalMemory := g.theTotalMemory + theSize }
  (g, g.theTotalMemory)

def DYNMEM_DecreaseMemoryCounter (g : Globals k) (theSize : UInt64) : Globals k × UInt64 :=
  let g := { g with theTotalMemory := g.theTotalMemory - theSize }
  (g, g.theTotalMemory)

/-- Steps a list walk may take before it has visited some live record twice. -/
def Globals.walkFuel (g : Globals k) : Nat := g.live.card + 1

/-- The search loop of `DYNMEM_realloc` and `DYNMEM_free`: the first record from `temp` on
whose `address` is `address`, or `NULL`. -/
def findAddress (g : Globals k) (address : Ptr) : Nat → Ptr → Option Ptr
  | 0, _ => none
  | fuel + 1, temp =>
    if temp = NULL then some NULL else
    match g.records temp with
    | none => none
    | some e => if e.address = address then some temp else findAddress g address fuel e.nextElement

/-- The critical section of `DYNMEM_malloc`: link `newItem` in front of the list. -/
def pushFront (g : Globals k) (head : Fin k) (newItem : Ptr) : Option (Globals k) := do
  let g ← g.setNext newItem (g.heads head)
  let g ← g.setPrev newItem NULL
  let g ← if g.heads head ≠ NULL then g.setPrev (g.heads head) newItem else some g
  some (g.setHead head newItem)

/-- The unlink of `DYNMEM_free`; each test reads `found` again, as the C code does. -/
def unlink (g : Globals k) (head : Fin k) (found : Ptr) : Option (Globals k) := do
  let e ← g.records found
  let g ← if e.previousElement ≠ NULL then g.setNext e.previousElement e.nextElement else some g
  let e ← g.records found
  let g ← if e.nextElement ≠ NULL then g.setPrev e.nextElement e.previousElement else some g
  let e ← g.records found
  some (if found = g.heads head then g.setHead head e.nextElement else g)

/-- The loop of `DYNMEM_freeAll`, with `totalSizeRemoved` as accumulator. -/
def freeAllLoop (L : Layout) : Nat → Globals k → Ptr → UInt64 → Option (Globals k × UInt64)
  | 0, _, _, _ => none
  | fuel + 1, g, current, total =>
    if current = NULL then some (g, total) else
    match g.records current with
    | none => none
    | some e => do
      let g ← sysFree g e.address
      let g ← sysFree g current
      freeAllLoop L fuel g e.nextElement (total + (e.size + L.tableSize))

-- ---------------------------------------------------------------------------
-- Core functions
-- ---------------------------------------------------------------------------

/-- `strncpy` into `theName`, then the terminating `'\0'`. -/
def copyName (L : Layout) (theName : String) : String := theName.take (L.nameSize - 1)

def DYNMEM_malloc (L : Layout) (bytes : UInt64) (head : Fin k) (theName : String)
    (g : Globals k) (a : Answer) : MallocStage → Option (Globals k × Pc k)
  | .calloc =>
    let (g, memory) := sysCalloc g none a
    if memory = NULL then
      some (g, .done (.ptr NULL) (some ⟨"Memory allocation error, out of memory.", 0⟩))
    else some (g, .malloc bytes head theName (.item memory))
  | .item memory =>
    -- the zero-filled record, with the metadata of step 2 written in
    let (g, newItem) := sysCalloc g (some ⟨memory, bytes, copyName L theName, NULL, NULL⟩) a
    if newItem = NULL then some (g, .malloc bytes head theName (.rollback memory))
    else some (g, .malloc bytes head theName (.link memory newItem))
  | .rollback memory => do
    let g ← sysFree g memory
    some (g, .done (.ptr NULL)
      (some ⟨"Memory allocation error, no room for memory list item.", 0⟩))
  | .link memory newItem => do
    let g ← pushFront g head newItem
    some (g, .malloc bytes head theName (.count memory))
  | .count memory =>
    some ((DYNMEM_IncreaseMemoryCounter g (bytes + L.tableSize)).1, .done (.ptr memory) none)

def DYNMEM_realloc (theMemoryAddress : Ptr) (bytes : UInt64) (head : Fin k)
    (g : Globals k) (a : Answer) : ReallocStage → Option (Globals k × Pc k)
  | .listSection => do
    let found ← findAddress g theMemoryAddress g.walkFuel (g.heads head)
    if found = NULL then
      some (g, .done (.ptr NULL)
        (some ⟨"Unable to reallocate memory not previously allocated", 0⟩))
    else do
      let (g, newMemory) ← sysRealloc g theMemoryAddress bytes a
      if newMemory ≠ NULL then do
        let e ← g.records found
        let g ← g.modify found fun e => { e with address := newMemory, size := bytes }
        some (g, .realloc theMemoryAddress bytes head (.count e.size newMemory))
      else some (g, .done (.ptr NULL) (some ⟨"Memory reallocation error, out of memory.", 0⟩))
  | .count oldSize newMemory =>
    let g := if bytes > oldSize then (DYNMEM_IncreaseMemoryCounter g (bytes - oldSize)).1
      else (DYNMEM_DecreaseMemoryCounter g (oldSize - bytes)).1
    some (g, .done (.ptr newMemory) none)

def DYNMEM_free (L : Layout) (f_address : Ptr) (head : Fin k) (g : Globals k) :
    FreeStage → Option (Globals k × Pc k)
  | .listSection => do
    let found ← findAddress g f_address g.walkFuel (g.heads head)
    if found = NULL then
      some (g, .done .void (some ⟨"Unable to free memory not previously allocated", 1⟩))
    else do
      let g ← unlink g head found
      some (g, .free f_address head (.count found))
  | .count found => do
    let e ← g.records found
    some ((DYNMEM_DecreaseMemoryCounter g (e.size + L.tableSize)).1,
      .free f_address head (.address found))
  | .address found => do
    let e ← g.records found
    let g ← sysFree g e.address
    some (g, .free f_address head (.record found))
  | .record found => do
    let g ← sysFree g found
    some (g, .done .void none)

def DYNMEM_freeAll (L : Layout) (head : Fin k) (g : Globals k) :
    FreeAllStage → Option (Globals k × Pc k)
  | .listSection => do
    let (g, totalSizeRemoved) ← freeAllLoop L g.walkFuel g (g.heads head) 0
    some (g.setHead head NULL, .freeAll head (.count totalSizeRemoved))
  | .count totalSizeRemoved =>
    let g := if totalSizeRemoved > 0 then (DYNMEM_DecreaseMemoryCounter g totalSizeRemoved).1
      else g
    some (g, .done .void none)

/-- What `DYNMEM_dump` prints: each record, the total it adds up, and the global counter. -/
structure Dump where
  blocks : List MemoryTable
  total : UInt64
  globalCounter : UInt64

/-- The loop of `DYNMEM_dump`, with `total` as accumulator. -/
def dumpLoop (L : Layout) (g : Globals k) :
    Nat → Ptr → UInt64 → Option (List MemoryTable × UInt64)
  | 0, _, _ => none
  | fuel + 1, current, total =>
    if current = NULL then some ([], total) else
    match g.records current with
    | none => none
    | some e => (dumpLoop L g fuel e.nextElement (total + (e.size + L.tableSize))).map
        fun r => (e :: r.1, r.2)

def DYNMEM_dump (L : Layout) (g : Globals k) (memoryListHead : Ptr) : Option Dump :=
  (dumpLoop L g g.walkFuel memoryListHead 0).map fun r => ⟨r.1, r.2, DYNMEM_GetTotalMemory g⟩

-- ---------------------------------------------------------------------------
-- Threads
-- ---------------------------------------------------------------------------

/-- Where a call starts; `DYNMEM_realloc(NULL, ...)` is `DYNMEM_malloc` with the name
`"Realloc"`, and `DYNMEM_free(NULL, ...)` returns at once. -/
def Call.entry : Call k → Pc k
  | .init => .init
  | .getTotalMemory => .getTotalMemory
  | .malloc bytes head theName => .malloc bytes head theName .calloc
  | .realloc p bytes head =>
    if p = NULL then .malloc bytes head "Realloc" .calloc else .realloc p bytes head .listSection
  | .free p head => if p = NULL then .done .void none else .free p head .listSection
  | .freeAll head => .freeAll head .listSection

/-- The next atomic step of a thread, with the allocator's answer to the call it makes (steps
that make none ignore it). A returned thread takes no step. -/
def Pc.exec (L : Layout) (g : Globals k) (a : Answer) : Pc k → Option (Globals k × Pc k)
  | .done _ _ => none
  | .init => some (DYNMEM_Init g, .done .void none)
  | .getTotalMemory => some (g, .done (.total (DYNMEM_GetTotalMemory g)) none)
  | .malloc bytes head theName s => DYNMEM_malloc L bytes head theName g a s
  | .realloc p bytes head s => DYNMEM_realloc p bytes head g a s
  | .free p head s => DYNMEM_free L p head g s
  | .freeAll head s => DYNMEM_freeAll L head g s

/-- A call run to its return by a lone thread, one answer per step. -/
def runCall (L : Layout) :
    Globals k → Pc k → List Answer → Option (Globals k × Ret × Option Report)
  | g, .done r rep, _ => some (g, r, rep)
  | _, _, [] => none
  | g, pc, a :: as => (pc.exec L g a).bind fun r => runCall L r.1 r.2 as

end DynamicMemory
