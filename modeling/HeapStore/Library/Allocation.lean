import HeapStore.Library.Effect
import HeapStore.Library.Image
import Mathlib.Data.List.Perm.Basic

/-! Byte memory with an allocator. An access that is not within one live block, and
freeing what is not one, is undefined. A program that owns some of the live blocks
and keeps to them leaves the bytes of all others alone. -/
namespace Allocation

open Effect

/-- A block of memory, by its address. -/
structure Block where
  addr : Nat
  size : Nat
  deriving DecidableEq, Repr

/-- Two blocks have no byte in common. -/
def Block.Apart (a b : Block) : Prop := a.addr + a.size ≤ b.addr ∨ b.addr + b.size ≤ a.addr

theorem Block.Apart.symm {a b : Block} (h : a.Apart b) : b.Apart a := Or.symm h

/-- The bytes, the live blocks, and how often a block was asked for. -/
structure Memory where
  bytes : Nat → UInt8
  live : List Block
  requests : Nat

/-- No byte and no block is another; blocks may have been asked for in vain. -/
structure Memory.Same (m m' : Memory) : Prop where
  bytes : m'.bytes = m.bytes
  live : m'.live = m.live

theorem Memory.Same.refl (m : Memory) : m.Same m := ⟨rfl, rfl⟩

/-- How a program over memory can end, other than well. -/
inductive Fault where
  | undefined
  | panic (message : String)
  deriving DecidableEq, Repr

/-- Where blocks of an alignment are put: apart from the live ones, or nowhere. The
answer may differ from request to request, by their number so far. -/
structure Allocator (align : Nat) where
  place : Nat → List Block → Nat → Option Nat
  pos : ∀ {requests live size addr}, place requests live size = some addr → 0 < addr
  aligned : ∀ {requests live size addr}, place requests live size = some addr → addr % align = 0
  apart : ∀ {requests live size addr}, place requests live size = some addr →
    ∀ b ∈ live, Block.Apart ⟨addr, size⟩ b

abbrev MemM := EStateM Fault Memory

/-- The range is empty, or within one live block. -/
def Memory.Within (m : Memory) (addr count : Nat) : Prop :=
  count = 0 ∨ ∃ b ∈ m.live, b.addr ≤ addr ∧ addr + count ≤ b.addr + b.size

instance (m : Memory) (addr count : Nat) : Decidable (m.Within addr count) :=
  inferInstanceAs (Decidable (_ ∨ ∃ b ∈ m.live, _))

/-- A new block of zeros, or the null address. -/
def allocZeroed {align : Nat} (A : Allocator align) (size : Nat) : MemM Nat := fun m =>
  if size = 0 then .error .undefined m
  else match A.place m.requests m.live size with
    | none => .ok 0 { m with requests := m.requests + 1 }
    | some addr => .ok addr
        ⟨Image.write m.bytes addr (List.replicate size 0), ⟨addr, size⟩ :: m.live, m.requests + 1⟩

def dealloc (b : Block) : MemM Unit := fun m =>
  if b ∈ m.live then .ok () { m with live := m.live.erase b } else .error .undefined m

def load (addr count : Nat) : MemM (List UInt8) := fun m =>
  if m.Within addr count then .ok (Image.read m.bytes addr count) m else .error .undefined m

def store (addr : Nat) (cells : List UInt8) : MemM Unit := fun m =>
  if m.Within addr cells.length then .ok () { m with bytes := Image.write m.bytes addr cells }
  else .error .undefined m

/-- Copy between ranges that must not meet. -/
def copyNonoverlapping (src dst count : Nat) : MemM Unit := do
  if src + count ≤ dst ∨ dst + count ≤ src then do
    let cells ← load src count
    store dst cells
  else throw .undefined

/-- The live blocks are apart, and they are the owned ones and the rest. -/
structure Owned (mine rest : List Block) (m : Memory) : Prop where
  ledger : m.live.Perm (mine ++ rest)
  apart : m.live.Pairwise Block.Apart

/-- The bytes of the blocks are the same. -/
def Kept (rest : List Block) (m m' : Memory) : Prop :=
  ∀ b ∈ rest, ∀ i, b.addr ≤ i → i < b.addr + b.size → m'.bytes i = m.bytes i

namespace Kept

variable {rest more : List Block} {m m' m'' : Memory}

theorem refl (rest : List Block) (m : Memory) : Kept rest m m := fun _ _ _ _ _ => rfl

theorem trans (h : Kept rest m m') (k : Kept rest m' m'') : Kept rest m m'' := by
  intro b hb i hLo hHi
  rw [k b hb i hLo hHi, h b hb i hLo hHi]

theorem of_same (rest : List Block) (h : m.Same m') : Kept rest m m' := fun _ _ _ _ _ => by rw [h.bytes]

theorem mono (h : Kept rest m m') (hSub : ∀ b ∈ more, b ∈ rest) : Kept more m m' :=
  fun b hb => h b (hSub b hb)

/-- What is read within a kept block is the same. -/
theorem read (h : Kept rest m m') {b : Block} (hb : b ∈ rest) {addr count : Nat} (hLo : b.addr ≤ addr)
    (hHi : addr + count ≤ b.addr + b.size) :
    Image.read m'.bytes addr count = Image.read m.bytes addr count := by
  apply Image.read_congr
  intro i hStart hEnd
  exact h b hb i (by omega) (by omega)

end Kept

namespace Owned

variable {mine rest other : List Block} {m : Memory} {b : Block} {addr count : Nat}

theorem mem_live (h : Owned mine rest m) (hb : b ∈ mine) : b ∈ m.live :=
  h.ledger.mem_iff.mpr (List.mem_append_left _ hb)

theorem within (h : Owned mine rest m) (hb : b ∈ mine) (hLo : b.addr ≤ addr)
    (hHi : addr + count ≤ b.addr + b.size) : m.Within addr count :=
  .inr ⟨b, h.mem_live hb, hLo, hHi⟩

/-- Owned blocks are apart from each other and from the rest. -/
theorem pairwise (h : Owned mine rest m) : (mine ++ rest).Pairwise Block.Apart :=
  h.ledger.pairwise h.apart fun hApart => hApart.symm

theorem perm {others : List Block} (h : Owned mine rest m)
    (hPerm : (mine ++ rest).Perm (other ++ others)) : Owned other others m :=
  ⟨h.ledger.trans hPerm, h.apart⟩

theorem store_ok (h : Owned (b :: mine) rest m) {cells : List UInt8} (hLo : b.addr ≤ addr)
    (hHi : addr + cells.length ≤ b.addr + b.size) :
    store addr cells m = .ok () { m with bytes := Image.write m.bytes addr cells } := by
  rw [store, if_pos (h.within (List.mem_cons_self ..) hLo hHi)]

/-- A store into an owned block keeps all others. -/
theorem kept_write (h : Owned (b :: mine) rest m) {cells : List UInt8} (hLo : b.addr ≤ addr)
    (hHi : addr + cells.length ≤ b.addr + b.size) :
    Kept (mine ++ rest) m { m with bytes := Image.write m.bytes addr cells } := by
  intro c hc i hStart hEnd
  have hApart := (List.pairwise_cons.mp h.pairwise).1 c hc
  apply Image.write_apply_off
  rw [Block.Apart] at hApart
  omega

theorem withBytes (h : Owned mine rest m) (bytes : Nat → UInt8) :
    Owned mine rest { m with bytes } := ⟨h.ledger, h.apart⟩

theorem same {m' : Memory} (h : Owned mine rest m) (hSame : m.Same m') : Owned mine rest m' :=
  ⟨by rw [hSame.live]; exact h.ledger, by rw [hSame.live]; exact h.apart⟩

/-- An allocation returns the null address, or a new owned block of zeros. -/
theorem alloc_cases {align size : Nat} (h : Owned mine rest m) (A : Allocator align)
    (hSize : 0 < size) : (∃ m', allocZeroed A size m = .ok 0 m' ∧ m.Same m') ∨
      ∃ addr m', allocZeroed A size m = .ok addr m' ∧ 0 < addr ∧ addr % align = 0 ∧
        Owned (⟨addr, size⟩ :: mine) rest m' ∧ Kept (mine ++ rest) m m' ∧
        Image.read m'.bytes addr size = List.replicate size 0 := by
  unfold allocZeroed
  rw [if_neg (by omega)]
  cases hPlace : A.place m.requests m.live size with
  | none => exact .inl ⟨_, rfl, rfl, rfl⟩
  | some addr =>
      have hNew := A.apart hPlace
      refine .inr ⟨addr, _, rfl, A.pos hPlace, A.aligned hPlace, ?_, ?_, ?_⟩
      · exact ⟨List.Perm.cons _ h.ledger, List.pairwise_cons.mpr ⟨hNew, h.apart⟩⟩
      · intro c hc i hLo hHi
        have hApart := hNew c (h.ledger.mem_iff.mpr hc)
        apply Image.write_apply_off
        rw [List.length_replicate]
        rw [Block.Apart] at hApart
        dsimp only at hApart
        omega
      · have hSame := Image.read_write_same m.bytes addr (List.replicate size (0 : UInt8))
        rwa [List.length_replicate] at hSame

/-- An owned block is freed, and no byte changes. -/
theorem dealloc_ok (h : Owned (b :: mine) rest m) :
    ∃ m', dealloc b m = .ok () m' ∧ m'.bytes = m.bytes ∧ Owned mine rest m' := by
  refine ⟨{ m with live := m.live.erase b }, ?_, rfl, ?_, ?_⟩
  · rw [dealloc, if_pos (h.mem_live (List.mem_cons_self ..))]
  · have hErased := h.ledger.erase b
    rwa [List.cons_append, List.erase_cons_head] at hErased
  · exact h.apart.sublist List.erase_sublist

/-- A copy from one owned block to the start of another. -/
theorem copy_ok {c : Block} (h : Owned (b :: c :: mine) rest m) (hSource : count ≤ c.size)
    (hTarget : count ≤ b.size) : copyNonoverlapping c.addr b.addr count m =
      .ok () { m with bytes := Image.write m.bytes b.addr (Image.read m.bytes c.addr count) } := by
  have hApart := (List.pairwise_cons.mp h.pairwise).1 c (List.mem_cons_self ..)
  have hLoad : load c.addr count m = .ok (Image.read m.bytes c.addr count) m := by
    rw [load, if_pos (h.within (List.mem_cons_of_mem _ (List.mem_cons_self ..)) (Nat.le_refl _) (by omega))]
  unfold copyNonoverlapping
  rw [if_pos (by rw [Block.Apart] at hApart; omega), bind_of_ok hLoad]
  exact h.store_ok (Nat.le_refl _) (by rw [Image.length_read]; omega)

end Owned

end Allocation
