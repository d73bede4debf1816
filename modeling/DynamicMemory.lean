import DynamicMemory.Memory
import DynamicMemory.Code
import DynamicMemory.Model
import DynamicMemory.System
import DynamicMemory.Segment
import DynamicMemory.Invariant
import DynamicMemory.Steps
import DynamicMemory.Lists
import DynamicMemory.Sequential
import DynamicMemory.Concurrent
import DynamicMemory.Safety
import DynamicMemory.Linearizable
