import BinTools.CString
import BinTools.PointerList

namespace BinTools.Loader

/-!
# Loading libraries with their dependencies

The loader keeps its libraries in ten slots of one page.  `__start` loads the
four libraries that the loader itself needs into the slots 0 to 3, the loader
has slot 4, and every further library takes the slot behind `TAIL`.  A library
is mapped, linked behind `TAIL` and then asked for its own needs, which are
looked up in the list that starts at `HEAD`.

Until the relocations of the loader are applied, no function of another library
can be called; `load_library` calls the logger when it is not given a slot.
-/

/-- `struct dso`, as far as loading works on it. -/
structure Dso where
  name : Option CString
  next : Option Nat
  depsIndex : Nat
  deriving DecidableEq, Repr

/-- The name of the loader in its slot. -/
def loaderName : CString :=
  CString.ofString "./__z__loader.so"

/-- Libraries that can be opened, with their `DT_NEEDED` entries in order. -/
structure Libraries where
  names : List CString
  needs : CString → List CString
  program : CString
  distinct : names.Nodup
  few : names.length ≤ 10
  closed : ∀ name ∈ names, ∀ need ∈ needs name, need ∈ names
  hasLoader : loaderName ∈ names
  hasProgram : program ∈ names
  four : (needs loaderName).length = 4
  apart : (needs loaderName).Nodup
  others : loaderName ∉ needs loaderName

/-- The start-up libraries. -/
def Libraries.startup (libs : Libraries) : List CString :=
  libs.needs loaderName

/--
The slots, `TAIL`, whether the loader's own relocations were applied, and every
assignment of a name to a slot so far.
-/
structure State where
  dsos : List Dso
  tail : Nat
  relocated : Bool
  filled : List (Nat × CString)
  deriving DecidableEq, Repr

namespace State

/-- The name of a slot. -/
def name (state : State) (slot : Nat) : Option CString :=
  (state.dsos[slot]?).bind Dso.name

/-- The slot behind a slot. -/
def next (state : State) (slot : Nat) : Option Nat :=
  (state.dsos[slot]?).bind Dso.next

/-- `deps_index` of a slot. -/
def depsIndex (state : State) (slot : Nat) : Nat :=
  (state.dsos[slot]?).elim 0 Dso.depsIndex

/-- A library gets a slot, behind `TAIL`, and depends on itself. -/
def enter (state : State) (slot : Nat) (name : CString) : State :=
  { state with
    dsos :=
      ((state.dsos.modify slot fun dso => { dso with name := some name }).modify
        state.tail fun dso => { dso with next := some slot }).modify slot
          fun dso => { dso with depsIndex := 1 <<< slot }
    tail := slot
    filled := state.filled ++ [(slot, name)] }

/-- `p->deps_index |= 1 << (dso - HEAD)` -/
def addDep (state : State) (slot dso : Nat) : State :=
  { state with
    dsos :=
      state.dsos.modify slot fun p =>
        { p with depsIndex := p.depsIndex ||| 1 <<< dso } }

/-- The slot of a library: a given one, or the one behind `TAIL`. -/
def slotFor (state : State) : Option Nat → Option Nat
  | some slot => some slot
  | none => if state.relocated then some (state.tail + 1) else none

/-- The search of `load_direct_deps` through the list from `HEAD`. -/
def search (bound : Nat) (state : State) (name : CString) :
    Option PointerList.Walk :=
  PointerList.walk state.next
    (fun q => (state.name q).map fun other => decide (other = name))
    bound none (some 0)

end State

/-- `load_direct_deps`, given `load_library` for a library without a slot. -/
def loadDirectDeps
    (load : State → CString → Option (State × Nat)) (bound : Nat)
    (state : State) (name : CString) : Option (State × Nat) :=
  (state.search bound name).bind fun
    | .hit q => some (state, q)
    | .miss _ => load state name

/-- The loop of `load_deps`. -/
def loadDeps
    (load : State → CString → Option (State × Nat)) (bound : Nat)
    (p : Nat) (needs : List CString) (state : State) : Option State :=
  needs.foldlM
    (fun (state : State) (need : CString) =>
      (loadDirectDeps load bound state need).map fun (state, dso) =>
        state.addDep p dso)
    state

/--
`load_library` with its recursion, and the slot it returns.  The bounds are for
the length of the list and the depth of the recursion.
-/
def loadLibrary (libs : Libraries) (bound : Nat) :
    Nat → State → CString → Option Nat → Option (State × Nat)
  | 0, _, _, _ => none
  | fuel + 1, state, name, given =>
      if name ∈ libs.names then
        (state.slotFor given).bind fun dso =>
          if dso < state.dsos.length then
            (loadDeps
              (fun state need => loadLibrary libs bound fuel state need none)
              bound dso (libs.needs name) (state.enter dso name)).map
                fun state => (state, dso)
          else
            none
      else
        none

/-- The slots when `__start` has found its own dynamic section. -/
def initial : State where
  dsos :=
    (List.replicate 10 { name := none, next := none, depsIndex := 0 }).modify 4
      fun dso => { dso with name := some loaderName }
  tail := 0
  relocated := false
  filled := [(4, loaderName)]

/-- The loop of `__start` over the needs of the loader. -/
def loadStartup (libs : Libraries) (fuel : Nat) (names : List CString) :
    Option State :=
  names.zipIdx.foldlM
    (fun (state : State) (entry : CString × Nat) =>
      (loadLibrary libs fuel fuel state entry.1 (some entry.2)).map Prod.fst)
    initial

/-- The loader takes its place behind the start-up libraries. -/
def State.addLoader (state : State) : State :=
  { state with
    dsos :=
      (state.dsos.modify 3 fun dso => { dso with next := some 4 }).modify 4
        fun dso =>
          { dso with depsIndex := 1 ||| (1 <<< 1) ||| (1 <<< 2) ||| (1 <<< 3) }
    tail := 4
    relocated := true }

/-- `__start` up to the program with its dependencies. -/
def start (libs : Libraries) (fuel : Nat) : Option State :=
  (loadStartup libs fuel libs.startup).bind fun state =>
    (loadLibrary libs fuel fuel state.addLoader libs.program none).map
      Prod.fst

/-! ## What loading is for -/

/-- The libraries that the loader and the program lead to. -/
inductive Needed (libs : Libraries) : CString → Prop where
  | loader : Needed libs loaderName
  | program : Needed libs libs.program
  | need {name need : CString} :
      Needed libs name → need ∈ libs.needs name → Needed libs need

/--
Every needed library has exactly one slot, no slot was given to two libraries,
the list from `HEAD` has every slot in use once, and `deps_index` has the bits
of the direct needs.  `own` tells which slots have their own bit.
-/
structure Loaded
    (own : Nat → Prop) (libs : Libraries) (state : State) : Prop where
  needed : ∀ slot name, state.name slot = some name → Needed libs name
  once : ∀ name, Needed libs name → ∃! slot, state.name slot = some name
  kept :
    ∀ one ∈ state.filled, ∀ two ∈ state.filled,
      one.1 = two.1 → one.2 = two.2
  listed :
    ∃ slots,
      PointerList.Linked state.next (some 0) slots ∧ slots.Nodup ∧
        ∀ slot, slot ∈ slots ↔ (state.name slot).isSome
  bits :
    ∀ slot name, state.name slot = some name →
      ∀ bit,
        (state.depsIndex slot).testBit bit = true ↔
          bit = slot ∧ own slot ∨
            ∃ need ∈ libs.needs name, state.name bit = some need

/-- Loading comes to an end, and this holds then. -/
def Loads (own : Nat → Prop) (libs : Libraries) : Prop :=
  ∃ fuel state, start libs fuel = some state ∧ Loaded own libs state

/--
Every start-up library needs only itself and those before it, and the program is
neither the loader nor one of them.
-/
structure StartsInOrder (libs : Libraries) : Prop where
  inOrder :
    ∀ k name, libs.startup[k]? = some name →
      ∀ need ∈ libs.needs name, need ∈ libs.startup.take (k + 1)
  isNew : libs.program ∉ loaderName :: libs.startup

end BinTools.Loader
