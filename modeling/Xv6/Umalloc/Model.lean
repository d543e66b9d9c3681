import Xv6.Lib.Segments

/-!
# The user allocator

`umalloc.c`: the allocator of Kernighan and Ritchie. The free blocks form a circular list through
`base`, each with a header that holds a pointer to the next one and its own size in units of a
header. Memory is seen through the two words that a header at an address would have; a program
may change them for all addresses inside the blocks that it holds.

`sbrk` is given with each call of `malloc`: it answers a request for some bytes, in view of the
regions handed out before. The loops of the source have no bound of their own; the model gives
them more rounds than there are addresses, and a loop that is not done by then has no result.
-/

namespace Xv6.Umalloc

/-- `sizeof(Header)`. -/
def HEADER : ℕ := 8

/-- More rounds than any loop of the allocator makes: eight for each address. -/
def ROUNDS : ℕ := 2 ^ 35

/-- What `sbrk` answers to a request, given the regions `(start, length)` so far; `none` is -1. -/
abbrev Sbrk := List (ℕ × ℕ) → ℕ → Option ℕ

/-- The memory of the allocator. -/
structure Heap where
  /-- `p->s.ptr`. -/
  ptr : ℕ → ℕ
  /-- `p->s.size`. -/
  size : ℕ → ℕ
  /-- `freep`, 0 before the first call. -/
  freep : ℕ
  /-- The regions obtained from `sbrk`, oldest first. -/
  regions : List (ℕ × ℕ)

namespace Heap

variable (s : Heap)

/-- `p + p->s.size`. -/
def after (p : ℕ) : ℕ := p + HEADER * s.size p

/-- Where the loop of `free` stops for the block `bp`. -/
def Stops (bp p : ℕ) : Prop :=
  p < bp ∧ bp < s.ptr p ∨ s.ptr p ≤ p ∧ (p < bp ∨ bp < s.ptr p)

instance (bp p : ℕ) : Decidable (s.Stops bp p) := inferInstanceAs (Decidable (_ ∨ _))

/-- The loop of `free`. -/
def freeScan (bp : ℕ) : ℕ → ℕ → Option ℕ
  | 0, _ => none
  | n + 1, p => if s.Stops bp p then some p else freeScan bp n (s.ptr p)

/-- Join the block `bp` to the one that follows `p`, if they touch. -/
def joinNext (p bp : ℕ) : Heap :=
  if s.after bp = s.ptr p then
    { s with
      size := Function.update s.size bp (s.size bp + s.size (s.ptr p))
      ptr := Function.update s.ptr bp (s.ptr (s.ptr p)) }
  else
    { s with ptr := Function.update s.ptr bp (s.ptr p) }

/-- Join the block `bp` to `p`, if they touch. -/
def joinPrev (p bp : ℕ) : Heap :=
  if s.after p = bp then
    { s with
      size := Function.update s.size p (s.size p + s.size bp)
      ptr := Function.update s.ptr p (s.ptr bp) }
  else
    { s with ptr := Function.update s.ptr p bp }

/-- `free`, apart from its loop. -/
def insert (p bp : ℕ) : Heap := { (s.joinNext p bp).joinPrev p bp with freep := p }

/-- Put a block back on the free list. -/
def free (ap : ℕ) : Option Heap :=
  (s.freeScan (ap - HEADER) ROUNDS s.freep).map fun p => s.insert p (ap - HEADER)

/-- Ask for at least `nu` units; the result is `freep`, or 0. -/
def morecore (sbrk : Sbrk) (nu : ℕ) : Option (ℕ × Heap) :=
  let nu := if nu < 4096 then 4096 else nu
  let bytes := nu * HEADER % 2 ^ 32
  match sbrk s.regions bytes with
  | none => some (0, s)
  | some p =>
    let s : Heap := { s with
      size := Function.update s.size p nu
      regions := s.regions ++ [(p, bytes)] }
    (s.free (p + HEADER)).map fun s => (s.freep, s)

/-- Allocate `nunits` units of the block `p`, which follows `prevp`: all of it, or its tail. -/
def take (nunits prevp p : ℕ) : ℕ × Heap :=
  if s.size p = nunits then
    (p + HEADER, { s with ptr := Function.update s.ptr prevp (s.ptr p), freep := prevp })
  else
    let rest := s.size p - nunits
    let q := p + HEADER * rest
    (q + HEADER, { s with
      size := Function.update (Function.update s.size p rest) q nunits
      freep := prevp })

end Heap

/-- The bytes that `morecore` asks for. -/
def request (nu : ℕ) : ℕ := (if nu < 4096 then 4096 else nu) * HEADER % 2 ^ 32

/-- The loop of `malloc`: its result, and the requests that it makes of `sbrk`. -/
def mallocLoop (sbrk : Sbrk) (nunits : ℕ) : ℕ → ℕ → ℕ → Heap → Option (ℕ × Heap) × List ℕ
  | 0, _, _, _ => (none, [])
  | n + 1, prevp, p, s =>
    if nunits ≤ s.size p then (some (s.take nunits prevp p), [])
    else if p = s.freep then
      match s.morecore sbrk nunits with
      | none => (none, [request nunits])
      | some (p, s) =>
        if p = 0 then (some (0, s), [request nunits])
        else (mallocLoop sbrk nunits n p (s.ptr p) s).map id (request nunits :: ·)
    else mallocLoop sbrk nunits n p (s.ptr p) s

/-- The free list before the first call of `malloc`: `base` alone. -/
def Heap.start (s : Heap) (base : ℕ) : Heap :=
  if s.freep = 0 then
    { s with
      ptr := Function.update s.ptr base base
      size := Function.update s.size base 0
      freep := base }
  else s

/-- The units for `nbytes` bytes and a header. -/
def units (nbytes : ℕ) : ℕ := (nbytes + (HEADER - 1)) % 2 ^ 32 / HEADER + 1

/-- Allocate `nbytes` bytes; the result is 0 if there is no memory. -/
def malloc (base : ℕ) (sbrk : Sbrk) (s : Heap) (nbytes : ℕ) : Option (ℕ × Heap) :=
  let s := s.start base
  (mallocLoop sbrk (units nbytes) ROUNDS s.freep (s.ptr s.freep) s).1

/-- The requests that `malloc` makes of `sbrk`. -/
def mallocCalls (base : ℕ) (sbrk : Sbrk) (s : Heap) (nbytes : ℕ) : List ℕ :=
  let s := s.start base
  (mallocLoop sbrk (units nbytes) ROUNDS s.freep (s.ptr s.freep) s).2

/-! ### Programs -/

/-- The allocator's memory, and the blocks that the program holds: the address of each header and
the number of bytes that were asked for. -/
structure Sys where
  heap : Heap
  live : List (ℕ × ℕ)

/-- What a program does. -/
inductive Action
  | malloc (sbrk : Sbrk) (nbytes : ℕ)
  | free (ap : ℕ)
  /-- Write to the two words at an address. -/
  | store (a ptr size : ℕ)

namespace Sys

/-- The steps of a program. -/
def next (base : ℕ) (s : Sys) : Action → Option Sys
  | .malloc sbrk nbytes =>
    (Umalloc.malloc base sbrk s.heap nbytes).map fun (r, heap) =>
      ⟨heap, if r = 0 then s.live else (r - HEADER, nbytes) :: s.live⟩
  | .free ap =>
    (s.heap.free ap).map fun heap => ⟨heap, s.live.eraseP fun b => b.1 = ap - HEADER⟩
  | .store a ptr size =>
    some { s with heap := { s.heap with
      ptr := Function.update s.heap.ptr a ptr
      size := Function.update s.heap.size a size } }

/-- What `sbrk` may answer: the start of an aligned region above `base`, apart from the earlier
ones. -/
def GoodSbrk (base : ℕ) (sbrk : Sbrk) : Prop :=
  ∀ regions n p, sbrk regions n = some p →
    HEADER ∣ p ∧ base + HEADER ≤ p ∧ p + n < 2 ^ 32 ∧
      ∀ r ∈ regions, p + n ≤ r.1 ∨ r.1 + r.2 ≤ p

/-- What a program may do: ask for at most `2 ^ 30` bytes, free a block that it holds, and write
inside one. -/
def Allowed (base : ℕ) (s : Sys) : Action → Prop
  | .malloc sbrk nbytes => nbytes ≤ 2 ^ 30 ∧ GoodSbrk base sbrk
  | .free ap => ∃ b ∈ s.live, ap = b.1 + HEADER
  | .store a _ _ => ∃ b ∈ s.live, b.1 + HEADER ≤ a ∧ a + HEADER ≤ s.heap.after b.1

/-- A step that is allowed. -/
def Step (base : ℕ) (s : Sys) (a : Action) (t : Sys) : Prop :=
  s.Allowed base a ∧ s.next base a = some t

/-- A program begins with no memory; what the headers would be does not matter. -/
def init (ptr size : ℕ → ℕ) : Sys := ⟨⟨ptr, size, 0, []⟩, []⟩

end Sys

end Xv6.Umalloc
