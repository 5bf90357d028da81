/-
Lapis.Mm.Vmm — address spaces (vmm.c).

The red-black tree `vmm->vmas` is the list of its VMAs in order of their bases: an insertion
is an insertion in order that fails on an equal base, a lower bound is the first VMA whose base
is not below the key, and an iteration goes through the list. A `vma_t *` in the tree is named
by its base, which no function changes. A `vmm_t *` is a number that is never used again.

Addresses and sizes are natural numbers; every sum or difference the source computes in 64 bits
is reduced modulo 2^64. The kernel heap is an oracle: a script says for every `kzalloc` whether
it is refused, served from a slab in hand or served from a new page of the physical memory
manager, and for every `kfree` whether a slab page goes back. A function that may run for ever
returns `none` in that case. Locks are left out, and so are `vnode_backing` and `vnode_offset`,
which nothing reads.
-/
import Lapis.Mm.Paging

namespace Lapis.Mm

open Function Lib

/-! ## vmm.h -/

def vflagPresent : BitVec 32 := .twoPow 32 0
def vflagWritable : BitVec 32 := .twoPow 32 1
def vflagUser : BitVec 32 := .twoPow 32 2
def vflagExecutable : BitVec 32 := .twoPow 32 3
def vflagLazy : BitVec 32 := .twoPow 32 4
def vflagAllocated : BitVec 32 := .twoPow 32 5
def vflagShared : BitVec 32 := .twoPow 32 6
def vflagFixed : BitVec 32 := .twoPow 32 7
def vflagMmio : BitVec 32 := .twoPow 32 9

def vmmFlagOwnsPml4 : BitVec 32 := .twoPow 32 0

def vmmUserStart : Nat := 0x0000000000001000
def vmmMmapBase : Nat := 0x0000700000000000
def vmmStackTop : Nat := 0x00007FFFFFFFE000

def pfPresent : BitVec 64 := .twoPow 64 0
def pfWrite : BitVec 64 := .twoPow 64 1
def pfUser : BitVec 64 := .twoPow 64 2
def pfIfetch : BitVec 64 := .twoPow 64 3

def eok : Int := 0
def enomem : Int := 12
def efault : Int := 14
def einval : Int := 22

/-- `a + b` in 64 bits. -/
def add64 (a b : Nat) : Nat := (a + b) % 2 ^ 64

/-- `a - b` in 64 bits. -/
def sub64 (a b : Nat) : Nat := (a + 2 ^ 64 - b) % 2 ^ 64

def vflagsToPflags (vflags : BitVec 32) : BitVec 64 :=
  (if has vflags vflagPresent then pflagPresent else 0) |||
  (if has vflags vflagWritable then pflagWrite else 0) |||
  (if has vflags vflagUser then pflagUser else 0) |||
  (if has vflags vflagExecutable then 0 else pflagNx) |||
  (if has vflags vflagMmio then pflagPcd ||| pflagPwt else 0)

/-- `vma_t`. -/
structure Vma where
  base : Nat
  size : Nat
  flags : BitVec 32
  deriving DecidableEq, Repr

namespace Vma

/-- `vma->base + vma->size`. -/
def limit (v : Vma) : Nat := add64 v.base v.size

/-- The containment test of `_find_vma`. -/
def covers (v : Vma) (addr : Nat) : Bool := v.base ≤ addr && addr < v.limit

end Vma

/-- `vmm_t`. -/
structure Vmm where
  vmas : List Vma
  vmasCount : Nat
  pml4 : Pfn
  flags : BitVec 32
  mmapBase : Nat
  stackTop : Nat
  brk : Nat
  brkBase : Nat
  deriving DecidableEq, Repr

/-! ## The tree of VMAs -/

namespace VmaTree

/-- `rb_insert`: `none` stands for the return value -1 on an equal base. -/
def rbInsert (v : Vma) : List Vma → Option (List Vma)
  | [] => some [v]
  | u :: us =>
    if v.base < u.base then some (v :: u :: us)
    else if v.base = u.base then none
    else (rbInsert v us).map (u :: ·)

def rbLowerBound (vmas : List Vma) (addr : Nat) : Option Vma := vmas.find? (addr ≤ ·.base)

/-- `rb_prev` of a node of the tree. -/
def rbPrev (vmas : List Vma) (node : Vma) : Option Vma :=
  (vmas.takeWhile (·.base < node.base)).getLast?

/-- The record the pointer to the VMA with the given base points to. -/
def deref (vmas : List Vma) (base : Nat) : Option Vma := vmas.find? (·.base == base)

/-- A write through the pointer to the VMA with the given base. -/
def assign (vmas : List Vma) (base : Nat) (f : Vma → Vma) : List Vma :=
  vmas.map fun v => if v.base = base then f v else v

def rbRemove (vmas : List Vma) (base : Nat) : List Vma := vmas.filter (·.base ≠ base)

def findVma (vmas : List Vma) (addr : Nat) : Option Vma :=
  match rbLowerBound vmas addr with
  | some v =>
    if v.covers addr then some v
    else
      match rbPrev vmas v with
      | some u => if u.covers addr then some u else none
      | none => none
  | none =>
    match vmas.getLast? with
    | some v => if v.covers addr then some v else none
    | none => none

def findVmaNext (vmas : List Vma) (addr : Nat) : Option Vma := rbLowerBound vmas addr

/-- The loop of `_find_free_gap`. A hint is below 2^64, so a loop that is not done after 2^64
rounds is in a cycle. -/
def findFreeGapFrom (vmas : List Vma) (size : Nat) : Nat → Nat → Option Nat
  | 0, _ => none
  | rounds + 1, hint =>
    if hint < add64 vmmUserStart size then some 0
    else
      let candidate := alignDown (sub64 hint size)
      if candidate < vmmUserStart then some 0
      else
        match (findVma vmas candidate).or (findVma vmas (sub64 (add64 candidate size) 1)) with
        | some overlap => findFreeGapFrom vmas size rounds overlap.base
        | none =>
          match findVmaNext vmas candidate with
          | none => some candidate
          | some next =>
            if add64 candidate size ≤ next.base then some candidate
            else findFreeGapFrom vmas size rounds next.base

def rangeOverlaps (vmas : List Vma) (base size : Nat) : Bool :=
  match findVma vmas base with
  | none => false
  | some v => v.base < add64 base size

end VmaTree

open VmaTree

/-- `_find_free_gap`: the address found, 0 if there is none, and the new `mmap_base`. -/
def findFreeGap (vmm : Vmm) (size : Nat) : Option (Nat × Vmm) :=
  (findFreeGapFrom vmm.vmas size (2 ^ 64) vmm.mmapBase).map fun base =>
    (base, if base = 0 then vmm else { vmm with mmapBase := base })

/-- The choice of the base in `vmm_map`; the inner `none` is the `return 0` on failure. -/
def choosePlace (vmm : Vmm) (base size : Nat) (flags : BitVec 32) : Option (Option Nat × Vmm) :=
  if base = 0 ∧ has flags vflagFixed = false then
    (findFreeGap vmm size).map fun (base, vmm) => (if base = 0 then none else some base, vmm)
  else
    let base := alignDown base
    if has flags vflagFixed && rangeOverlaps vmm.vmas base size then some (none, vmm)
    else some (some base, vmm)

/-! ## Pages of a VMA -/

namespace Phys

/-- `unmap_page` on the first `n` pages from `base`. -/
def unmapPages (pml4 : Pfn) (base : Nat) : Nat → Phys → Phys
  | 0, s => s
  | n + 1, s => (unmapPages pml4 base n s).unmapPage pml4 (add64 base (n * pageSize))

/-- The loop of `_vma_allocate_pages` from page `i` on, for `n` more pages. -/
def allocateFrom (pml4 : Pfn) (base : Nat) (pflags : BitVec 64) : Nat → Nat → Phys → Int × Phys
  | _, 0, s => (eok, s)
  | i, n + 1, s =>
    match s.pmmAllocPage with
    | (none, s) => (enomem, unmapPages pml4 base i s)
    | (some page, s) =>
      allocateFrom pml4 base pflags (i + 1) n
        ((s.zeroPage page).mapPage pml4 (add64 base (i * pageSize)) page pflags)

def vmaAllocatePages (s : Phys) (pml4 : Pfn) (vma : Vma) : Int × Vma × Phys :=
  if vma.size % pageSize ≠ 0 then (-1, vma, s)
  else
    match allocateFrom pml4 vma.base (vflagsToPflags vma.flags) 0 (vma.size / pageSize) s with
    | (err, s) =>
      if err = eok then (eok, { vma with flags := vma.flags ||| vflagAllocated }, s)
      else (err, vma, s)

/-- `_vma_free_pages`; every caller frees the record next, so its flags are not kept. -/
def vmaFreePages (s : Phys) (pml4 : Pfn) (vma : Vma) : Phys :=
  if has vma.flags vflagAllocated then
    if vma.size % pageSize ≠ 0 then s
    else unmapPages pml4 vma.base (vma.size / pageSize) s
  else s

/-- One page of `vmm_protect`. -/
def protectPage (s : Phys) (pml4 : Pfn) (vaddr : Nat) (pflags : BitVec 64) : Phys :=
  let paddr := s.getPaddr pml4 vaddr
  if paddr = 0 then s
  else
    match s.pmm.pfnDbPhysToPage paddr with
    | some page => (s.unmapPage pml4 vaddr).mapPage pml4 vaddr page pflags
    | none => s

def protectPages (pml4 : Pfn) (base : Nat) (pflags : BitVec 64) : Nat → Phys → Phys
  | 0, s => s
  | n + 1, s =>
    (protectPages pml4 base pflags n s).protectPage pml4 (add64 base (n * pageSize)) pflags

/-- One page of a `VFLAG_SHARED` VMA in `vmm_fork`. -/
def forkSharedPage (s : Phys) (parent child : Pfn) (vaddr : Nat) (pflags : BitVec 64) : Phys :=
  let paddr := s.getPaddr parent vaddr
  if paddr = 0 then s
  else
    match s.pmm.pfnDbPhysToPage paddr with
    | none => s
    | some page =>
      let s := s.modPmm fun m => (m.pmmPageShare page).pmmPageRetain page
      s.mapPage child vaddr page pflags

/-- One page of a `VFLAG_ALLOCATED` VMA in `vmm_fork`. -/
def forkCowPage (s : Phys) (parent child : Pfn) (vaddr : Nat) (pflags : BitVec 64) : Phys :=
  let paddr := s.getPaddr parent vaddr
  if paddr = 0 then s
  else
    match s.pmm.pfnDbPhysToPage paddr with
    | none => s
    | some page =>
      let s := s.modPmm fun m => ((m.pmmPageMarkCow page).pmmPageShare page).pmmPageRetain page
      (s.mapPage child vaddr page pflags).mapPage parent vaddr page pflags

/-- A loop of `vmm_fork` over the first `n` pages from `base`. -/
def forkPages (page : Phys → Nat → Phys) (base : Nat) : Nat → Phys → Phys
  | 0, s => s
  | n + 1, s => page (forkPages page base n s) (add64 base (n * pageSize))

/-- What `vmm_fork` does with the pages of one VMA of the parent. -/
def forkVma (s : Phys) (parent child : Pfn) (vma : Vma) : Phys :=
  let pflags := vflagsToPflags vma.flags
  if has vma.flags vflagShared then
    forkPages (fun s v => s.forkSharedPage parent child v pflags) vma.base
      (vma.size / pageSize) s
  else if has vma.flags vflagAllocated then
    forkPages (fun s v => s.forkCowPage parent child v (pflags &&& ~~~pflagWrite)) vma.base
      (vma.size / pageSize) s
  else s

end Phys

/-! ## The memory manager with its address spaces -/

/-- What the kernel heap answers to a `kzalloc`. -/
inductive HeapReply
  | refuse
  | reuse
  | grow
  deriving DecidableEq, Repr

/-- The heap oracle: the answers to come, for every `kfree` to come the slab page that goes back
if one does, and the slab pages the heap holds. -/
structure Heap where
  replies : List HeapReply
  drops : List (Option Nat)
  slabs : List Pfn
  deriving DecidableEq, Repr

structure MmState where
  phys : Phys
  heap : Heap
  vmms : Nat → Option Vmm
  nextVmm : Nat
  /-- `current_vmm`, with `none` for the kernel's address space. -/
  current : Option Nat

namespace MmState

def kzalloc (s : MmState) : Bool × MmState :=
  match s.heap.replies with
  | [] => (true, s)
  | reply :: replies =>
    let s := { s with heap := { s.heap with replies := replies } }
    match reply with
    | .refuse => (false, s)
    | .reuse => (true, s)
    | .grow =>
      match s.phys.pmmAllocPage with
      | (none, phys) => (false, { s with phys := phys })
      | (some p, phys) =>
        (true, { s with phys := phys, heap := { s.heap with slabs := p :: s.heap.slabs } })

def kfree (s : MmState) : MmState :=
  match s.heap.drops with
  | [] => s
  | drop :: drops =>
    let s := { s with heap := { s.heap with drops := drops } }
    match drop.bind (s.heap.slabs[·]?) with
    | none => s
    | some p =>
      { s with
        phys := s.phys.modPmm (·.pmmPageRelease p)
        heap := { s.heap with slabs := s.heap.slabs.erase p } }

/-- `reg_kernel_mmio`. -/
def regKernelMmio (s : MmState) (vaddr paddr npages : Nat) : MmState :=
  match s.kzalloc with
  | (false, s) => s
  | (true, s) =>
    { s with phys := { s.phys with
        mmioRegions := ⟨vaddr, paddr, npages⟩ :: s.phys.mmioRegions } }

def setVmm (s : MmState) (id : Nat) (vmm : Vmm) : MmState :=
  { s with vmms := update s.vmms id (some vmm) }

def modPhys (s : MmState) (f : Phys → Phys) : MmState := { s with phys := f s.phys }

/-! ## Creation and destruction -/

def vmmCreate (s : MmState) : Option Nat × MmState :=
  match s.kzalloc with
  | (false, s) => (none, s)
  | (true, s) =>
    match s.phys.pteAlloc with
    | (none, phys) => (none, { s with phys := phys }.kfree)
    | (some pml4, phys) =>
      (some s.nextVmm,
        { s with
          phys := phys
          nextVmm := s.nextVmm + 1
          vmms := update s.vmms s.nextVmm (some
            { vmas := [], vmasCount := 0, pml4 := pml4, flags := vmmFlagOwnsPml4,
              mmapBase := vmmMmapBase, stackTop := vmmStackTop, brk := 0, brkBase := 0 }) })

def vmmDestroy (s : MmState) (id : Nat) : MmState :=
  match s.vmms id with
  | none => s
  | some vmm =>
    let s := if s.current = some id then { s with current := none } else s
    let s := vmm.vmas.foldl
      (fun s vma => (s.modPhys fun phys => phys.vmaFreePages vmm.pml4 vma).kfree) s
    let s := if has vmm.flags vmmFlagOwnsPml4 then s.modPhys (·.pteFree vmm.pml4) else s
    { s with vmms := update s.vmms id none }.kfree

/-! ## vmm_map -/

/-- The second half of `vmm_map`: the record, its pages and the insertion. -/
def mapAt (s : MmState) (id : Nat) (vmm : Vmm) (vma : Vma) : Nat × MmState :=
  match s.kzalloc with
  | (false, s) => (0, s)
  | (true, s) =>
    match if has vma.flags vflagLazy then (eok, vma, s.phys)
      else s.phys.vmaAllocatePages vmm.pml4 vma with
    | (err, vma, phys) =>
      let s := { s with phys := phys }
      if err ≠ eok then (0, s.kfree)
      else
        match rbInsert vma vmm.vmas with
        | none => (0, (s.modPhys fun phys => phys.vmaFreePages vmm.pml4 vma).kfree)
        | some vmas =>
          (vma.base, s.setVmm id { vmm with vmas := vmas, vmasCount := add64 vmm.vmasCount 1 })

def vmmMap (s : MmState) (id : Nat) (base size : Nat) (flags : BitVec 32) : Option (Nat × MmState) :=
  match s.vmms id with
  | none => some (0, s)
  | some vmm =>
    if size = 0 then some (0, s)
    else
      let size := alignUp size
      match choosePlace vmm base size flags with
      | none => none
      | some (none, _) => some (0, s)
      | some (some base, vmm) => some ((s.setVmm id vmm).mapAt id vmm ⟨base, size, flags⟩)

/-! ## vmm_unmap -/

/-- `_vma_split` on a VMA of the address space; the source returns the new VMA or NULL. -/
def vmaSplit (s : MmState) (id : Nat) (vmm : Vmm) (vma : Vma) (splitAddr : Nat) : Bool × MmState :=
  if splitAddr ≤ vma.base ∨ vma.limit ≤ splitAddr then (false, s)
  else
    match s.kzalloc with
    | (false, s) => (false, s)
    | (true, s) =>
      let newVma : Vma := ⟨splitAddr, sub64 vma.limit splitAddr, vma.flags⟩
      let vmas := assign vmm.vmas vma.base fun v => { v with size := sub64 splitAddr vma.base }
      match rbInsert newVma vmas with
      | none => (false, (s.setVmm id { vmm with vmas := vmas }).kfree)
      | some vmas =>
        (true, s.setVmm id { vmm with vmas := vmas, vmasCount := add64 vmm.vmasCount 1 })

/-- The loop of `vmm_unmap` over the VMAs from `node` on. -/
def unmapLoop (id base limit : Nat) : List Vma → MmState → MmState
  | [], s => s
  | vma :: rest, s =>
    if base ≤ vma.base ∧ vma.limit ≤ limit then
      match s.vmms id with
      | none => s
      | some vmm =>
        let s := s.modPhys fun phys => phys.vmaFreePages vmm.pml4 vma
        let s := s.setVmm id { vmm with
          vmas := rbRemove vmm.vmas vma.base, vmasCount := sub64 vmm.vmasCount 1 }
        unmapLoop id base limit rest s.kfree
    else if limit ≤ vma.base then s
    else unmapLoop id base limit rest s

/-- The split before the range in `vmm_unmap`. -/
def unmapFirst (s : MmState) (id : Nat) (vmm : Vmm) (base : Nat) : Bool × MmState :=
  match findVma vmm.vmas base with
  | some first => if first.base < base then s.vmaSplit id vmm first base else (true, s)
  | none => (true, s)

/-- The split behind the range in `vmm_unmap`. -/
def unmapLast (s : MmState) (id : Nat) (vmm : Vmm) (limit : Nat) : Bool × MmState :=
  match findVma vmm.vmas (sub64 limit 1) with
  | some last => if last.limit < limit then s.vmaSplit id vmm last limit else (true, s)
  | none => (true, s)

def vmmUnmap (s : MmState) (id : Nat) (base size : Nat) : Int × MmState :=
  match s.vmms id with
  | none => (-einval, s)
  | some vmm =>
    if size = 0 then (-einval, s)
    else
      let base := alignDown base
      let limit := add64 base (alignUp size)
      match s.unmapFirst id vmm base with
      | (false, s) => (-enomem, s)
      | (true, s) =>
        match s.vmms id with
        | none => (0, s)
        | some vmm =>
          match s.unmapLast id vmm limit with
          | (false, s) => (-enomem, s)
          | (true, s) =>
            match s.vmms id with
            | none => (0, s)
            | some vmm => (0, unmapLoop id base limit vmm.vmas s)

/-! ## vmm_protect -/

def protectFlags (flags newFlags : BitVec 32) : BitVec 32 :=
  let preserve := vflagAllocated ||| vflagLazy ||| vflagPresent
  (flags &&& preserve) ||| (newFlags &&& ~~~preserve)

/-- The rest of a round of `vmm_protect`, once the VMA lies inside the range: the new flags and
the new leaves. -/
def protectVma (s : MmState) (id : Nat) (vmm : Vmm) (vma : Vma) (newFlags : BitVec 32) : MmState :=
  let flags := protectFlags vma.flags newFlags
  let s := s.setVmm id { vmm with
    vmas := assign vmm.vmas vma.base fun v => { v with flags := flags } }
  if has flags vflagAllocated then
    s.modPhys (Phys.protectPages vmm.pml4 vma.base (vflagsToPflags flags) (vma.size / pageSize))
  else s

/-- A conditional `_vma_split` of a round of `vmm_protect`. -/
def splitIf (c : Prop) [Decidable c] (s : MmState) (id : Nat) (vmm : Vmm) (vma : Vma)
    (splitAddr : Nat) : Bool × MmState :=
  if c then s.vmaSplit id vmm vma splitAddr else (true, s)

/-- The VMA of a round of `vmm_protect` after the split at `addr`. -/
def reload (vmas : List Vma) (vma : Vma) (addr : Nat) : Option Vma :=
  if vma.base < addr then findVma vmas addr else some vma

/-- The loop of `vmm_protect`. `addr` grows in every round, so 2^64 rounds are enough; the other
`none`s are NULL dereferences, which cannot happen. -/
def protectLoop (id limit : Nat) (newFlags : BitVec 32) : Nat → Nat → MmState → Option (Int × MmState)
  | 0, _, _ => none
  | rounds + 1, addr, s =>
    if addr < limit then do
      let vmm ← s.vmms id
      match findVma vmm.vmas addr with
      | none => some (-einval, s)
      | some vma =>
        match splitIf (vma.base < addr) s id vmm vma addr with
        | (false, s) => some (-enomem, s)
        | (true, s) => do
          let vmm ← s.vmms id
          let vma ← reload vmm.vmas vma addr
          match splitIf (limit < vma.limit) s id vmm vma limit with
          | (false, s) => some (-enomem, s)
          | (true, s) => do
            let vmm ← s.vmms id
            let vma ← deref vmm.vmas vma.base
            protectLoop id limit newFlags rounds vma.limit (s.protectVma id vmm vma newFlags)
    else some (0, s)

def vmmProtect (s : MmState) (id : Nat) (base size : Nat) (newFlags : BitVec 32) :
    Option (Int × MmState) :=
  match s.vmms id with
  | none => some (-einval, s)
  | some _ =>
    if size = 0 then some (-einval, s)
    else
      let base := alignDown base
      protectLoop id (add64 base (alignUp size)) newFlags (2 ^ 64) base s

/-! ## vmm_is_accessible -/

/-- The loop of `vmm_is_accessible`. `addr` grows in every round, so 2^64 rounds are enough. -/
def accessibleLoop (vmas : List Vma) (limit : Nat) (access : BitVec 32) : Nat → Nat → Option Int
  | 0, _ => none
  | rounds + 1, addr =>
    if addr < limit then
      match findVma vmas addr with
      | none => some 0
      | some v =>
        if v.flags &&& access ≠ access then some 0
        else accessibleLoop vmas limit access rounds v.limit
    else some 1

def vmmIsAccessible (s : MmState) (id : Nat) (base size : Nat) (access : BitVec 32) : Option Int :=
  match s.vmms id with
  | none => some 0
  | some vmm =>
    if size = 0 then some 0
    else
      accessibleLoop vmm.vmas (alignUp (add64 base size)) access (2 ^ 64) (alignDown base)

/-! ## Page faults -/

/-- A fault on a page that is not mapped. -/
def populate (s : MmState) (vmm : Vmm) (vma : Vma) (page : Nat) : Int × MmState :=
  if has vma.flags vflagLazy then
    match s.phys.pmmAllocPage with
    | (none, phys) => (-enomem, { s with phys := phys })
    | (some p, phys) =>
      (eok, { s with
        phys := (phys.zeroPage p).mapPage vmm.pml4 page p (vflagsToPflags vma.flags) })
  else (-efault, s)

/-- A write fault on a page mapped to `paddr`. -/
def copyOnWrite (s : MmState) (vmm : Vmm) (vma : Vma) (page : Nat) (paddr : BitVec 64) : Int × MmState :=
  match s.phys.pmm.pfnDbPhysToPage paddr with
  | none => (-efault, s)
  | some old =>
    if (s.phys.pmm.pages old).isPageCow then
      if (s.phys.pmm.pages old).u2 ≤ 1 then
        (eok, s.modPhys fun phys =>
          (phys.modPmm (·.pmmPageClearCow old)).mapPage vmm.pml4 page old
            (vflagsToPflags vma.flags))
      else
        match s.phys.pmmAllocPage with
        | (none, phys) => (-enomem, { s with phys := phys })
        | (some new, phys) =>
          -- the new page is cleared and then overwritten with the old one
          let phys := { phys with mem := update phys.mem new (phys.mem (frameOf paddr)) }
          let phys := phys.modPmm fun m => (m.pmmPageUnshare old).pmmPageRelease old
          (eok, { s with phys := phys.mapPage vmm.pml4 page new (vflagsToPflags vma.flags) })
    else (-efault, s)

def vmmPfHandler (s : MmState) (id : Nat) (faultAddr : Nat) (errorCode : BitVec 64) : Int × MmState :=
  match s.vmms id with
  | none => (-einval, s)
  | some vmm =>
    let faultPage := alignDown faultAddr
    match findVma vmm.vmas faultPage with
    | none => (-efault, s)
    | some vma =>
      if has errorCode pfWrite && !has vma.flags vflagWritable then (-efault, s)
      else if has errorCode pfUser && !has vma.flags vflagUser then (-efault, s)
      else if has errorCode pfIfetch && !has vma.flags vflagExecutable then (-efault, s)
      else
        let paddr := s.phys.getPaddr vmm.pml4 faultPage
        if paddr = 0 then s.populate vmm vma faultPage
        else if has errorCode pfWrite && has errorCode pfPresent then
          s.copyOnWrite vmm vma faultPage paddr
        else (efault, s)

/-! ## vmm_fork -/

/-- The loop of `vmm_fork`; on failure the child is destroyed. -/
def forkLoop (parent : Pfn) (child : Nat) : List Vma → MmState → Bool × MmState
  | [], s => (true, s)
  | vma :: rest, s =>
    match s.kzalloc with
    | (false, s) => (false, s.vmmDestroy child)
    | (true, s) =>
      match s.vmms child with
      | none => (false, s)
      | some vmm =>
        let s := s.modPhys fun phys => phys.forkVma parent vmm.pml4 vma
        -- the result of `rb_insert` is not looked at
        let vmas := (rbInsert vma vmm.vmas).getD vmm.vmas
        forkLoop parent child rest
          (s.setVmm child { vmm with vmas := vmas, vmasCount := add64 vmm.vmasCount 1 })

def vmmFork (s : MmState) (parent : Nat) : Option Nat × MmState :=
  match s.vmms parent with
  | none => (none, s)
  | some pvmm =>
    match s.vmmCreate with
    | (none, s) => (none, s)
    | (some child, s) =>
      match forkLoop pvmm.pml4 child pvmm.vmas s with
      | (false, s) => (none, s)
      | (true, s) =>
        match s.vmms child with
        | none => (none, s)
        | some vmm =>
          (some child, s.setVmm child { vmm with
            mmapBase := pvmm.mmapBase, stackTop := pvmm.stackTop,
            brk := pvmm.brk, brkBase := pvmm.brkBase })

end MmState

end Lapis.Mm
