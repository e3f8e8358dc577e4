import BinTools.NameHash
import Mathlib.Data.List.Basic

namespace BinTools

/-!
# The GNU hash table: builder and reader

`dynamic.c` builds the `.gnu.hash` section one exported symbol at a time and
`hashtable.c` reads it back.  The section is one block of memory: a four-word
header, `bloom_size` 64-bit Bloom words, `nbuckets` bucket words and then the
chain words up to the end of the block.  The three arrays are kept apart here;
an access outside of its array is `none`.
-/

/-- The `.gnu.hash` block: header, Bloom words, buckets and chain words. -/
structure GnuHashTable where
  nbuckets : U32
  symoffset : U32
  bloomSize : U32
  bloomShift : U32
  bloomArray : List U64
  buckets : List Nat
  chain : List U32
  deriving DecidableEq, Repr

namespace GnuHashTable

/-- A zeroed block whose header is filled in, with `slots` chain words. -/
def zeroed (nbuckets bloomSize bloomShift : U32) (slots : Nat) :
    GnuHashTable where
  nbuckets := nbuckets
  symoffset := 1
  bloomSize := bloomSize
  bloomShift := bloomShift
  bloomArray := List.replicate bloomSize.toNat 0
  buckets := List.replicate nbuckets.toNat 0
  chain := List.replicate slots 0

/-- The Bloom word for a hash divided by the word size. -/
def bloomIndex (table : GnuHashTable) (index : U32) : Nat :=
  (index &&& (table.bloomSize - 1)).toNat

/-- The first Bloom bit of a hash. -/
def shift1 (gh : U32) : Nat :=
  gh.toNat % 64

/--
The second Bloom bit of a hash.  The shift count is taken modulo 32, as the
x86-64 shift instruction does.
-/
def shift2 (table : GnuHashTable) (gh : U32) : Nat :=
  (gh >>> (table.bloomShift.toNat % 32)).toNat % 64

/-- The bucket a hash selects: `gh % nbuckets`. -/
def bucketOf (table : GnuHashTable) (gh : U32) : Nat :=
  (gh % table.nbuckets).toNat

/-- The word a chain slot receives for a hash: `gh & -2`. -/
def maskedHash (gh : U32) : U32 :=
  gh &&& (-2)

/-- `1ul << shift` for a shift below 64. -/
def bit (shift : Nat) : U64 :=
  BitVec.twoPow 64 shift

/-- `set_bloom_bits`: raise both bits of a hash in its Bloom word. -/
def setBloomBits (table : GnuHashTable) (gh : U32) : Option GnuHashTable :=
  let index := table.bloomIndex (gh / 64)
  (table.bloomArray[index]?).map fun vector =>
    { table with
      bloomArray :=
        table.bloomArray.set index
          (vector ||| bit (shift1 gh) ||| bit (table.shift2 gh)) }

/-- `for (; *p; p++);` from a slot on: the first zero word of the chain. -/
def firstZeroFrom (chain : List U32) (slot : Nat) : Option Nat :=
  ((chain.drop slot).findIdx? (· = 0)).map (slot + ·)

/--
`check_gnu_hash_collision`: an empty bucket takes the symbol index and the
hash goes to the symbol's own slot; otherwise the hash goes to the first zero
word at or after the slot the bucket points to.
-/
def checkGnuHashCollision
    (table : GnuHashTable) (gh : U32) (mod symIndex : Nat) :
    Option GnuHashTable :=
  (table.buckets[mod]?).bind fun bucket =>
    if bucket ≠ 0 then
      (firstZeroFrom table.chain (bucket - table.symoffset.toNat)).map
        fun slot =>
          { table with chain := table.chain.set slot (maskedHash gh) }
    else
      let slot := symIndex - table.symoffset.toNat
      if slot < table.chain.length then
        some
          { table with
            buckets := table.buckets.set mod symIndex
            chain := table.chain.set slot (maskedHash gh) }
      else
        none

/-- `add_gnu_hash_entry`; a table without buckets traps on the division. -/
def addGnuHashEntry
    (table : GnuHashTable) (name : CString) (symIndex : Nat) :
    Option GnuHashTable :=
  let gh := gnuHash name
  (table.setBloomBits gh).bind fun table =>
    if table.nbuckets = 0 then
      none
    else
      table.checkGnuHashCollision gh (table.bucketOf gh) symIndex

/-- Add a sequence of names under consecutive symbol indices. -/
def addGnuHashEntries (table : GnuHashTable) :
    Nat → List CString → Option GnuHashTable
  | _, [] => some table
  | symIndex, name :: rest =>
      (table.addGnuHashEntry name symIndex).bind fun table =>
        addGnuHashEntries table (symIndex + 1) rest

/--
What a lookup did: the returned symbol index (zero for an unknown name, `none`
when it read outside of the block) and the chain slots it read on the way.
-/
structure Probe where
  result : Option Nat
  chainSlots : List Nat
  deriving DecidableEq, Repr

/--
The `for (h1 |= 1;; i++)` loop of `gnu_lookup` over the chain words from
`hashval` to the end of the block.  `nameAt` is the string of a symbol-table
entry; the loop only ends on a match or on an odd chain word.
-/
def gnuWalk
    (nameAt : Nat → Option CString) (s : CString) (h1 : U32) :
    Nat → Nat → List U32 → Probe
  | _, _, [] => ⟨none, []⟩
  | i, slot, h2 :: rest =>
      let next : Probe :=
        if h2 &&& 1 ≠ 0 then
          ⟨some 0, [slot]⟩
        else
          let later := gnuWalk nameAt s h1 (i + 1) (slot + 1) rest
          ⟨later.result, slot :: later.chainSlots⟩
      if h1 = h2 ||| 1 then
        match nameAt i with
        | none => ⟨none, [slot]⟩
        | some name => if name = s then ⟨some i, [slot]⟩ else next
      else
        next

/-- `gnu_lookup`: start at the slot the bucket points to, if it points. -/
def gnuLookup
    (table : GnuHashTable) (nameAt : Nat → Option CString)
    (h1 : U32) (s : CString) : Probe :=
  match table.buckets[table.bucketOf h1]? with
  | none => ⟨none, []⟩
  | some i =>
      if i = 0 then
        ⟨some 0, []⟩
      else
        let slot := i - table.symoffset.toNat
        gnuWalk nameAt s (h1 ||| 1) i slot (table.chain.drop slot)

/-- `gnu_lookup_filtered`: both Bloom bits must be set before the walk. -/
def gnuLookupFiltered
    (table : GnuHashTable) (nameAt : Nat → Option CString)
    (h1 : U32) (s : CString) (fofs : U32) (fmask : U64) : Probe :=
  match table.bloomArray[table.bloomIndex fofs]? with
  | none => ⟨none, []⟩
  | some f =>
      if f &&& fmask = 0 then
        ⟨some 0, []⟩
      else if (f >>> table.shift2 h1) &&& 1 = 0 then
        ⟨some 0, []⟩
      else
        table.gnuLookup nameAt h1 s

/-- `find_sym2`: hash the name, then look it up behind the Bloom filter. -/
def findSym2
    (table : GnuHashTable) (nameAt : Nat → Option CString) (s : CString) :
    Probe :=
  let gh := gnuHash s
  table.gnuLookupFiltered nameAt gh s (gh / 64) (bit (shift1 gh))

end GnuHashTable

end BinTools
