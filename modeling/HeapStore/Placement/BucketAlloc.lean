import HeapStore.Placement.Contract
import Mathlib.Data.Nat.Log

/-! The bucket allocator: extents of the data file and regions of record
numbers, each owned by one bucket and recorded as a registry row. -/
namespace HeapStore

structure Extent where
  start : Nat
  size : Nat
  used : Nat
  deriving DecidableEq, Repr

namespace Extent

def stop (e : Extent) : Nat := e.start + e.size

/-- The whole free pages behind the used bytes. -/
def freeTail (e : Extent) : Nat := e.size - pageUp e.used

end Extent

structure BucketState where
  id : Nat
  data : List Extent
  slots : List Extent

structure BucketPlacement where
  states : List BucketState
  extentGrantCount : Nat
  fileSize : Nat
  nextRegion : Nat
  registryEnd : Nat

/-- Change the last element of a list. -/
def modifyLast {α : Type} (f : α → α) (l : List α) : List α := l.modify (l.length - 1) f

def requiredExtentSize (config : HeapConfig) (totalLen : Nat) : Nat :=
  max (pageUp totalLen) config.minExtent

/-- The same number as the code computes it, with a checked sum. -/
def checkedExtentSize {σ : Type} (config : HeapConfig) (totalLen : Nat) : EStateM Failure σ Nat := do
  let pages ← pageUpU64 totalLen
  return max pages config.minExtent

/-- Where one step of the victim search ends, if it ends. -/
inductive Grant where
  | whole
  | grow
  | cut (victimIndex : Nat)
  | missing
  deriving DecidableEq, Repr

/-- The victim position of a grant number inside its section; a section starts
at each power of two. -/
def victimIndex (grantNumber : Nat) : Nat := grantNumber - 2 ^ Nat.log2 grantNumber

namespace BucketPlacement

open Placed

/-- The position of a bucket, as the map of bucket numbers gives it. -/
def bucketIndices (p : BucketPlacement) (bucket : Nat) : Option Nat :=
  p.states.findIdx? fun state => state.id == bucket

def modifyState (p : BucketPlacement) (i : Nat) (f : BucketState → BucketState) :
    BucketPlacement :=
  { p with states := p.states.modify i f }

def lastExtent? (states : List BucketState) (i : Nat) : Option Extent :=
  (states[i]?).bind fun state => state.data.getLast?

/-- One pass of the grant loop; with no result the next grant number is tried. -/
def examine (states : List BucketState) (need grantNumber : Nat) : Option Grant :=
  if grantNumber = 0 then some .whole
  else if states.length ≤ victimIndex grantNumber then some .grow
  else match lastExtent? states (victimIndex grantNumber) with
    | none => some .missing
    | some victim =>
        if need ≤ victim.freeTail then some (.cut (victimIndex grantNumber)) else none

/-- The grant loop. The second result is the grant counter that it leaves. -/
def searchVictim (states : List BucketState) (need : Nat) : Nat → Nat → Option (Grant × Nat)
  | 0, _ => none
  | fuel + 1, grantNumber =>
      match examine states need grantNumber with
      | some grant => some (grant, grantNumber + 1)
      | none => searchVictim states need fuel (grantNumber + 1)

/-- Enough passes for the grant loop to end. -/
def searchFuel (states : List BucketState) : Nat := 3 * states.length + 2

def pushRow (row : RegistryRow) : PlaceM BucketPlacement Unit := do
  let p ← getPlacement
  onStore (PagedFile.stage .registry p.registryEnd [row.encode])
  modifyPlacement fun p => { p with registryEnd := p.registryEnd + REGISTRY_ROW_SIZE }

/-- Split the free tail of a victim's last extent. -/
def cutVictim (i need : Nat) : PlaceM BucketPlacement Extent := do
  let p ← getPlacement
  match lastExtent? p.states i with
  | none => throw (.panic "bucket without extent")
  | some victim => do
      let cut := max (pageDown (victim.freeTail / 2)) need
      let size ← subU64 victim.size cut
      modifyPlacement fun p => p.modifyState i fun state =>
        { state with data := modifyLast (fun e => { e with size }) state.data }
      return { start := victim.start + size, size := cut, used := 0 }

/-- Extend the file and take the new space. The new end is checked where it is reserved. -/
def growFile (config : HeapConfig) (need : Nat) : PlaceM BucketPlacement Extent := do
  let p ← getPlacement
  let grow := max need config.growth
  onStore (PagedFile.ensureAlloc .data (p.fileSize + grow) grow)
  modifyPlacement fun p => { p with fileSize := p.fileSize + grow }
  return { start := p.fileSize, size := grow, used := 0 }

def takeExtent (config : HeapConfig) (need : Nat) : PlaceM BucketPlacement Extent := do
  let p ← getPlacement
  match searchVictim p.states need (searchFuel p.states) p.extentGrantCount with
  | none => throw (.panic "victim search does not end")
  | some (grant, next) => do
      modifyPlacement fun p => { p with extentGrantCount := next }
      match grant with
      | .whole => do
          let size ← subU64 p.fileSize PAGE
          return { start := PAGE, size, used := 0 }
      | .grow => growFile config need
      | .cut i => cutVictim i need
      | .missing => throw (.panic "bucket without extent")

/-- The number of the bucket at a position. -/
def bucketId (p : BucketPlacement) (i : Nat) : Nat := ((p.states[i]?).map BucketState.id).getD 0

def grantExtent (config : HeapConfig) (bucketIndex need : Nat) : PlaceM BucketPlacement Unit := do
  let extent ← takeExtent config need
  let p ← getPlacement
  pushRow ⟨'D'.toUInt8, p.bucketId bucketIndex, extent.start, extent.size⟩
  modifyPlacement fun p => p.modifyState bucketIndex fun state =>
    { state with data := state.data ++ [extent] }

def grantRegion (config : HeapConfig) (bucketIndex : Nat) : PlaceM BucketPlacement Unit := do
  let p ← getPlacement
  let region : Extent := { start := p.nextRegion, size := config.regionSlots, used := 0 }
  let nextRegion ← addU64 p.nextRegion config.regionSlots
  modifyPlacement fun p => { p with nextRegion }
  pushRow ⟨'S'.toUInt8, p.bucketId bucketIndex, region.start, region.size⟩
  modifyPlacement fun p => p.modifyState bucketIndex fun state =>
    { state with slots := state.slots ++ [region] }

/-- The position of a bucket, which gets an extent and a region when it is new. -/
def bucketIndex (config : HeapConfig) (bucket need : Nat) : PlaceM BucketPlacement Nat := do
  let p ← getPlacement
  match p.bucketIndices bucket with
  | some i => return i
  | none => do
      let i := p.states.length
      modifyPlacement fun p => { p with states := p.states ++ [⟨bucket, [], []⟩] }
      grantExtent config i need
      grantRegion config i
      return i

def placeBytes (config : HeapConfig) (bucketIndex totalLen : Nat) : PlaceM BucketPlacement Nat := do
  let p ← getPlacement
  match lastExtent? p.states bucketIndex with
  | none => throw (.panic "bucket without extent")
  | some extent => do
      let stop ← addU64 extent.used totalLen
      if stop ≤ extent.size then do
        modifyPlacement fun p => p.modifyState bucketIndex fun state =>
          { state with data := modifyLast (fun e => { e with used := e.used + totalLen }) state.data }
        return extent.start + extent.used
      else do
        let need ← checkedExtentSize config totalLen
        grantExtent config bucketIndex need
        let p ← getPlacement
        match lastExtent? p.states bucketIndex with
        | none => throw (.panic "called `Option::unwrap()` on a `None` value")
        | some extent => do
            modifyPlacement fun p => p.modifyState bucketIndex fun state =>
              { state with data := modifyLast (fun e => { e with used := totalLen }) state.data }
            return extent.start

/-- The next record number of a bucket, from a new region when the last one is full. -/
def nextNumber (config : HeapConfig) (bucketIndex : Nat) : PlaceM BucketPlacement Nat := do
  let p ← getPlacement
  match (p.states[bucketIndex]?).bind fun state => state.slots.getLast? with
  | none => throw (.panic "bucket without region")
  | some region =>
      if region.used < region.size then do
        modifyPlacement fun p => p.modifyState bucketIndex fun state =>
          { state with slots := modifyLast (fun e => { e with used := e.used + 1 }) state.slots }
        return region.start + region.used
      else do
        grantRegion config bucketIndex
        let p ← getPlacement
        match (p.states[bucketIndex]?).bind fun state => state.slots.getLast? with
        | none => throw (.panic "called `Option::unwrap()` on a `None` value")
        | some region => do
            modifyPlacement fun p => p.modifyState bucketIndex fun state =>
              { state with slots := modifyLast (fun e => { e with used := 1 }) state.slots }
            return region.start

def alloc (config : HeapConfig) (bucket totalLen : Nat) : PlaceM BucketPlacement (Nat × Nat) := do
  let need ← checkedExtentSize config totalLen
  let i ← bucketIndex config bucket need
  let offset ← placeBytes config i totalLen
  let id ← nextNumber config i
  return (offset, id)

def allocUpdate (config : HeapConfig) (bucket totalLen : Nat) : PlaceM BucketPlacement Nat := do
  let p ← getPlacement
  match p.bucketIndices bucket with
  | none => throw (.error (.invalidArg "update refers to unknown bucket"))
  | some i => placeBytes config i totalLen

def usedBytes (p : BucketPlacement) : Nat :=
  ((p.states.flatMap fun state => state.data).map fun extent => extent.used).sum

end BucketPlacement

end HeapStore
