import V6User.Base.Walk
import V6User.Malloc.Pool

/-!
# The allocator

`lib/umalloc.c`: `free`, `morecore` and `malloc`.

Addresses are natural numbers, and the memory is read and written through the
headers at addresses only: a header is a link and a size in units of
`sizeof(Header)`, a `uint`, so that sizes are added and subtracted modulo `2^32`.
`base` is the address of the static header.  A heap also keeps the regions that
`sbrk` returned, which no function reads; `sbrk` itself is a parameter that sees
them, and the size asked for.  The two `for` loops spend one unit of fuel at each
turn.
-/

namespace V6User
namespace Malloc

/-- `union header`: `s.ptr` and `s.size`. -/
structure Header where
  ptr : ℕ
  size : ℕ
  deriving DecidableEq, Repr

/-- The headers in memory, by address. -/
abbrev Mem := ℕ → Header

/-- The range of `uint`. -/
def uintRange : ℕ := 2 ^ 32

/-- `p->s.ptr = x`. -/
def Mem.setPtr (m : Mem) (p x : ℕ) : Mem := Function.update m p { m p with ptr := x }

/-- `p->s.size = n`. -/
def Mem.setSize (m : Mem) (p n : ℕ) : Mem := Function.update m p { m p with size := n }

/-- `p + n` for a pointer to a header. -/
def plus (p n : ℕ) : ℕ := p + hdrSize * n

/-- The static state of the allocator, and what `sbrk` has returned so far; a
null `freep` is `none`. -/
structure Heap where
  mem : Mem
  freep : Option ℕ
  regions : List Extent

/-- Why a call did not return: it followed a null pointer, or the model ran out
of fuel. -/
inductive Stop where
  | null
  | fuel
  deriving DecidableEq, Repr

/-- The `for` loop of `free`: the entry of the ring behind which `bp` belongs. -/
def freeSearch (m : Mem) (bp : ℕ) : ℕ → ℕ → Except Stop ℕ
  | 0, _ => .error .fuel
  | fuel + 1, p =>
    if p < bp ∧ bp < (m p).ptr then .ok p
    else if (m p).ptr ≤ p ∧ (p < bp ∨ bp < (m p).ptr) then .ok p
    else freeSearch m bp fuel (m p).ptr

/-- `free` merges `bp` with the entry after `p`, or links it to it. -/
def joinUpper (m : Mem) (bp p : ℕ) : Mem :=
  if plus bp (m bp).size = (m p).ptr then
    let m := m.setSize bp (((m bp).size + (m (m p).ptr).size) % uintRange)
    m.setPtr bp (m (m p).ptr).ptr
  else m.setPtr bp (m p).ptr

/-- `free` merges `p` with `bp`, or links it to it. -/
def joinLower (m : Mem) (bp p : ℕ) : Mem :=
  if plus p (m p).size = bp then
    let m := m.setSize p (((m p).size + (m bp).size) % uintRange)
    m.setPtr p (m bp).ptr
  else m.setPtr p bp

/-- `free(ap)`. -/
def free (fuel : ℕ) (h : Heap) (ap : ℕ) : Except Stop Heap :=
  let bp := ap - hdrSize
  match h.freep with
  | none => .error .null
  | some freep => do
    let p ← freeSearch h.mem bp fuel freep
    .ok { h with mem := joinLower (joinUpper h.mem bp p) bp p, freep := some p }

/-- A system call `sbrk(n)`: it fails, or returns the address of a region of `n`
bytes. -/
abbrev Sbrk := List Extent → ℕ → Option ℕ

/-- `morecore(nu)`. -/
def morecore (sbrk : Sbrk) (fuel : ℕ) (h : Heap) (nu : ℕ) : Except Stop (Heap × Option ℕ) :=
  let nu := if nu < 4096 then 4096 else nu
  match sbrk h.regions (nu * hdrSize) with
  | none => .ok (h, none)
  | some hp => do
    let h ← free fuel
      { h with mem := h.mem.setSize hp nu, regions := h.regions ++ [⟨hp, nu * hdrSize⟩] }
      (hp + hdrSize)
    .ok (h, h.freep)

/-- `malloc` takes `nunits` units from the end of the block `p`, which is behind
`prevp` in the ring. -/
def take (h : Heap) (prevp p nunits : ℕ) : Heap × ℕ :=
  if (h.mem p).size = nunits then
    ({ h with mem := h.mem.setPtr prevp (h.mem p).ptr, freep := some prevp }, p + hdrSize)
  else
    let m := h.mem.setSize p ((h.mem p).size - nunits)
    let p := plus p (m p).size
    ({ h with mem := m.setSize p nunits, freep := some prevp }, p + hdrSize)

/-- The `for` loop of `malloc`; the result is the pointer returned, or `0`. -/
def mallocLoop (sbrk : Sbrk) (nunits : ℕ) : ℕ → Heap → ℕ → ℕ → Except Stop (Heap × ℕ)
  | 0, _, _, _ => .error .fuel
  | fuel + 1, h, prevp, p =>
    if nunits ≤ (h.mem p).size then .ok (take h prevp p nunits)
    else if h.freep = some p then do
      let r ← morecore sbrk fuel h nunits
      match r.2 with
      | none => .ok (r.1, 0)
      | some p => mallocLoop sbrk nunits fuel r.1 p (r.1.mem p).ptr
    else mallocLoop sbrk nunits fuel h p (h.mem p).ptr

/-- The number of units for `nbytes` bytes and a header. -/
def unitsFor (nbytes : UInt32) : ℕ := (nbytes.toNat + hdrSize - 1) / hdrSize + 1

/-- The first call of `malloc` makes a ring of the static header alone. -/
def init (base : ℕ) (h : Heap) : Heap :=
  match h.freep with
  | some _ => h
  | none => { h with mem := (h.mem.setPtr base base).setSize base 0, freep := some base }

/-- `malloc(nbytes)`. -/
def malloc (base : ℕ) (sbrk : Sbrk) (fuel : ℕ) (h : Heap) (nbytes : UInt32) :
    Except Stop (Heap × ℕ) :=
  let h := init base h
  match h.freep with
  | none => .error .null
  | some prevp => mallocLoop sbrk (unitsFor nbytes) fuel h prevp (h.mem prevp).ptr

/-- A request fits into its units, with a header to spare. -/
theorem le_unitsFor (nbytes : UInt32) : nbytes.toNat + hdrSize ≤ hdrSize * unitsFor nbytes := by
  simp only [unitsFor, hdrSize]
  omega

end Malloc
end V6User
