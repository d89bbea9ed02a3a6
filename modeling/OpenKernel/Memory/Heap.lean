import OpenKernel.Lib.ByteMemory
import OpenKernel.Lib.Transition
import Mathlib.Data.List.Basic

/-!
# The kernel heap

`heap_init`, `kmalloc` and `kfree` of `memory.c` on byte memory. A `heap_block *`
is an address, 0 is null, and a header is three words: `next`, `size` and `free`.
Console output is left out.
-/

namespace OpenKernel.Memory

def heapStart : ℕ := 0xE0000000

def heapSize : ℕ := 0x04000000

/-- `sizeof(heap_block)`. -/
def headerSize : ℕ := 12

def word (n : ℕ) : ℕ := n % 2 ^ 32

section Fields

variable (m : ByteMemory) (block v : ℕ)

def nextOf : ℕ := m.load block

def sizeOf : ℕ := m.load (block + 4)

def freeOf : ℕ := m.load (block + 8)

def setNext : ByteMemory := m.store block v

def setSize : ByteMemory := m.store (block + 4) v

def setFree : ByteMemory := m.store (block + 8) v

end Fields

/-- The memory and the static pointer `heap_start`; `live` records the results of `kmalloc`
not freed since, each with the number of bytes asked for. -/
structure Heap where
  mem : ByteMemory
  start : ℕ
  live : List (ℕ × ℕ)

/-- `heap_init`: the heap is larger than a header. -/
def heapInit (mem : ByteMemory) : Heap where
  mem := setNext (setFree (setSize mem heapStart (heapSize - headerSize)) heapStart 1) heapStart 0
  start := heapStart
  live := []

/-- The search loop of `kmalloc`: the best block so far, if any, among those before `current`.
The loop only reads, so that without an end in `2 ^ 32` rounds it runs forever. -/
def findBestFit (m : ByteMemory) (size : ℕ) : ℕ → ℕ → ℕ → Option ℕ
  | 0, _, _ => none
  | rounds + 1, current, bestFit =>
    if current = 0 then some bestFit
    else
      let bestFit :=
        if freeOf m current ≠ 0 ∧ size ≤ sizeOf m current then
          if bestFit = 0 ∨ sizeOf m current < sizeOf m bestFit then current else bestFit
        else bestFit
      findBestFit m size rounds (nextOf m current) bestFit

/-- The end of `kmalloc`: split the block if enough is left over, and mark it used. -/
def takeBlock (m : ByteMemory) (bestFit size : ℕ) : ByteMemory :=
  let m :=
    if word (size + headerSize + 16) < sizeOf m bestFit then
      let newBlock := word (bestFit + headerSize + size)
      let m := setSize m newBlock (word (sizeOf m bestFit + 2 ^ 33 - size - headerSize))
      let m := setFree m newBlock 1
      let m := setNext m newBlock (nextOf m bestFit)
      let m := setSize m bestFit size
      setNext m bestFit newBlock
    else m
  setFree m bestFit 0

/-- The multiple of 16 that `kmalloc` looks for: `(size + 15) & ~15`. -/
def alignSize (size : ℕ) : ℕ := word (size + 15) / 16 * 16

/-- `kmalloc`: the memory and the pointer returned. -/
def kmalloc (m : ByteMemory) (start size : ℕ) : Option (ByteMemory × ℕ) :=
  if size = 0 then some (m, 0)
  else
    let size := alignSize size
    (findBestFit m size (2 ^ 32) start 0).map fun bestFit =>
      if bestFit = 0 then (m, 0)
      else (takeBlock m bestFit size, word (bestFit + headerSize))

def kfree (m : ByteMemory) (ptr : ℕ) : ByteMemory :=
  if ptr = 0 then m
  else
    let block := word (ptr + 2 ^ 32 - headerSize)
    let m := setFree m block 1
    if nextOf m block ≠ 0 ∧ freeOf m (nextOf m block) ≠ 0 then
      let m := setSize m block
        (word (sizeOf m block + (headerSize + sizeOf m (nextOf m block))))
      setNext m block (nextOf m (nextOf m block))
    else m

/-- What kernel code does with the heap; `poke` writes one byte of memory. -/
inductive Call
  | kmalloc (size : ℕ)
  | kfree (ptr : ℕ)
  | poke (addr : ℕ) (value : UInt8)

/-- One call. The record of written bytes is that of the call. -/
def step (h : Heap) : Call → Option Heap
  | .kmalloc size =>
    (kmalloc h.mem.clearLog h.start size).map fun (mem, ptr) =>
      { h with mem := mem, live := if ptr = 0 then h.live else (ptr, size) :: h.live }
  | .kfree ptr => some
    { h with mem := kfree h.mem.clearLog ptr, live := h.live.filter (·.1 ≠ ptr) }
  | .poke addr value => some { h with mem := h.mem.clearLog.storeByte addr value }

end OpenKernel.Memory
