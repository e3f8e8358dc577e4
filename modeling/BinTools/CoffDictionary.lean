import BinTools.CoffImportStubs
import BinTools.HashChains

namespace BinTools.CoffDictionary

/-!
# The dictionary of DLL symbols

`DLLHashTable` keeps the functions of known DLLs in chains of `SymbolChain3`.
`alloc_dynamic_symbol` asks `lookup_dynamic_symbol` where to link the next
chain: it answers with the bucket when that is empty, with the last chain when
no name is equal, and with the successor of the first chain of the same name
otherwise.  The next chain is linked behind whatever was answered.
-/

/-- `SymbolChain3`; pointers to other chains are their numbers. -/
structure SymbolChain3 where
  next : Option Nat
  this : CString
  name : CString
  ever : U32
  deriving DecidableEq, Repr

/-- `DLLHashTable` with all chains that were allocated. -/
structure DllHashTable where
  bucket : List (Option Nat)
  chains : List SymbolChain3
  deriving DecidableEq, Repr

/-- Where `lookup_dynamic_symbol` points to when it has no address. -/
inductive Place where
  | bucket (index : Nat)
  | chain (index : Nat)
  deriving DecidableEq, Repr

/-- What a chain says about its function. -/
def SymbolChain3.symbol (chain : SymbolChain3) : Coff.DllSymbol where
  name := chain.name
  dll := chain.this
  ever := chain.ever

namespace DllHashTable

/-- The table that `init_hashtable` makes. -/
def init : DllHashTable where
  bucket := List.replicate 10 none
  chains := []

/-- The chain behind a chain. -/
def next (table : DllHashTable) (k : Nat) : Option Nat :=
  (table.chains[k]?).bind SymbolChain3.next

/-- The function of a chain. -/
def symbol (table : DllHashTable) (k : Nat) : Option Coff.DllSymbol :=
  (table.chains[k]?).map SymbolChain3.symbol

/-- The bucket of a name. -/
def bucketOf (table : DllHashTable) (name : CString) : Nat :=
  (elfHash name).toNat % table.bucket.length

/-- The first chain of a bucket. -/
def head (table : DllHashTable) (name : CString) : Option Nat :=
  table.bucket.getD (table.bucketOf name) none

/-- The loop of `lookup_dynamic_symbol`. -/
def walk (table : DllHashTable) (name : CString) : Option PointerList.Walk :=
  PointerList.walk table.next
    (fun k =>
      (table.symbol k).map fun symbol => decide (symbol.name = name))
    table.chains.length none (table.head name)

/--
`lookup_dynamic_symbol` with an address: the DLL of the first chain of the
name, and the stub address it already had; a chain without one gets the next.
-/
def lookupDynamicSymbol
    (pltOffset : U32) (table : DllHashTable) (name : CString) :
    Option (DllHashTable × Option (CString × U32)) :=
  (table.walk name).bind fun
    | .miss _ => some (table, none)
    | .hit k =>
        (table.chains[k]?).map fun chain =>
          if chain.ever = 0 then
            ({ table with
                chains :=
                  table.chains.modify k fun chain =>
                    { chain with ever := pltOffset } },
              some (chain.this, 0))
          else
            (table, some (chain.this, chain.ever))

/-- `lookup_dynamic_symbol` without an address. -/
def lookupPlace (table : DllHashTable) (name : CString) :
    Option (Option Place) :=
  if table.head name = none then
    some (some (.bucket (table.bucketOf name)))
  else
    (table.walk name).map fun
      | .hit k => (table.next k).map .chain
      | .miss pre => pre.map .chain

/-- `*ret = chain` for a place that was answered. -/
def link (table : DllHashTable) (chain : SymbolChain3) :
    Place → DllHashTable
  | .bucket index =>
      { bucket := table.bucket.set index (some table.chains.length)
        chains := table.chains ++ [chain] }
  | .chain index =>
      { table with
        chains :=
          (table.chains.modify index fun before =>
            { before with next := some table.chains.length }) ++ [chain] }

/-- `alloc_dynamic_symbol` -/
def allocDynamicSymbol
    (table : DllHashTable) (name dllname : CString) :
    Option DllHashTable :=
  (table.lookupPlace name).map fun ret =>
    ret.elim table
      (table.link { next := none, this := dllname, name := name, ever := 0 })

/-- Some calls of `alloc_dynamic_symbol`. -/
def allocDynamicSymbols
    (table : DllHashTable) (calls : List (CString × CString)) :
    Option DllHashTable :=
  calls.foldlM
    (fun (table : DllHashTable) (call : CString × CString) =>
      table.allocDynamicSymbol call.1 call.2)
    table

/-- The names in the bucket of a name, in the order of the chains. -/
def namesOf (table : DllHashTable) (name : CString) : List CString :=
  ((PointerList.follow table.next table.chains.length
    (table.head name)).getD []).filterMap fun k =>
      (table.symbol k).map Coff.DllSymbol.name

end DllHashTable

/-! ## Chains as lists -/

/--
What `alloc_dynamic_symbol` makes of the list of a bucket: the new entry goes
to the end, or behind the one that follows the first entry of the name.
-/
def linkBehind (fresh : Coff.DllSymbol) :
    List Coff.DllSymbol → List Coff.DllSymbol
  | [] => [fresh]
  | entry :: rest =>
      if entry.name = fresh.name then
        entry :: rest.head?.elim [] fun successor => [successor, fresh]
      else
        entry :: linkBehind fresh rest

/-- The names of a bucket that stay reachable when a name is linked. -/
def keptNames (names : List CString) (name : CString) : List CString :=
  names.takeWhile (· ≠ name) ++ (names.dropWhile (· ≠ name)).take 2

/--
Every name behind the entry that follows the first entry of a name also stands
before that point.
-/
def KeepsNames (names : List CString) (name : CString) : Prop :=
  ∀ other ∈ (names.dropWhile (· ≠ name)).drop 2,
    other ∈ keptNames names name

instance (names : List CString) (name : CString) :
    Decidable (KeepsNames names name) :=
  inferInstanceAs (Decidable (∀ other ∈ _, _))

/-- The names after linking an entry. -/
theorem mem_names_linkBehind
    (fresh : Coff.DllSymbol) (chain : List Coff.DllSymbol)
    (other : CString) :
    other ∈ (linkBehind fresh chain).map Coff.DllSymbol.name ↔
      other = fresh.name ∨
        other ∈ keptNames (chain.map Coff.DllSymbol.name) fresh.name := by
  induction chain with
  | nil => simp [linkBehind, keptNames]
  | cons entry rest inductionHypothesis =>
      by_cases sameName : entry.name = fresh.name
      · cases rest with
        | nil => simp [linkBehind, keptNames, sameName]
        | cons successor rest =>
            simp [linkBehind, keptNames, sameName]
            tauto
      · have keptCons :
            keptNames ((entry :: rest).map Coff.DllSymbol.name) fresh.name =
              entry.name ::
                keptNames (rest.map Coff.DllSymbol.name) fresh.name := by
          simp [keptNames, sameName]
        rw [linkBehind, if_neg sameName, List.map_cons, List.mem_cons,
          inductionHypothesis, keptCons, List.mem_cons]
        exact or_left_comm

/-- No entry comes from elsewhere. -/
theorem mem_of_mem_linkBehind
    {fresh entry : Coff.DllSymbol} {chain : List Coff.DllSymbol}
    (member : entry ∈ linkBehind fresh chain) :
    entry ∈ chain ∨ entry = fresh := by
  induction chain with
  | nil => exact Or.inr (List.mem_singleton.mp member)
  | cons first rest inductionHypothesis =>
      rw [linkBehind] at member
      split_ifs at member with sameName
      · cases rest with
        | nil => exact Or.inl member
        | cons successor rest =>
            simp only [List.head?_cons, Option.elim_some, List.mem_cons,
              List.not_mem_nil, or_false] at member
            rcases member with rfl | rfl | rfl
            · exact Or.inl List.mem_cons_self
            · exact Or.inl (List.mem_cons_of_mem _ List.mem_cons_self)
            · exact Or.inr rfl
      · rcases List.mem_cons.mp member with rfl | isLater
        · exact Or.inl List.mem_cons_self
        · exact
            (inductionHypothesis isLater).imp_left
              (List.mem_cons_of_mem _)

/-- Entries of other names stay in front. -/
theorem linkBehind_append
    {fresh : Coff.DllSymbol} {front : List Coff.DllSymbol}
    (others : ∀ entry ∈ front, entry.name ≠ fresh.name)
    (rest : List Coff.DllSymbol) :
    linkBehind fresh (front ++ rest) = front ++ linkBehind fresh rest := by
  induction front with
  | nil => rfl
  | cons entry front inductionHypothesis =>
      have isOther := others entry List.mem_cons_self
      have restOthers := fun entry member =>
        others entry (List.mem_cons_of_mem _ member)
      rw [List.cons_append, linkBehind, if_neg isOther,
        inductionHypothesis restOthers, List.cons_append]

/-- A name that no entry has is not touched. -/
theorem touch_of_absent
    (pltOffset : U32) {name : CString} {chain : List Coff.DllSymbol}
    (absent : ∀ entry ∈ chain, entry.name ≠ name) :
    Coff.touch pltOffset name chain = none := by
  induction chain with
  | nil => rfl
  | cons entry rest inductionHypothesis =>
      have restAbsent := fun entry member =>
        absent entry (List.mem_cons_of_mem _ member)
      rw [Coff.touch, if_neg (absent entry List.mem_cons_self),
        inductionHypothesis restAbsent, Option.map_none]

/-- Entries of other names stay in front. -/
theorem touch_append
    (pltOffset : U32) {name : CString} {front : List Coff.DllSymbol}
    (others : ∀ entry ∈ front, entry.name ≠ name)
    (rest : List Coff.DllSymbol) :
    Coff.touch pltOffset name (front ++ rest) =
      (Coff.touch pltOffset name rest).map fun (rest, found) =>
        (front ++ rest, found) := by
  induction front with
  | nil =>
      rw [List.nil_append]
      cases Coff.touch pltOffset name rest <;> rfl
  | cons entry front inductionHypothesis =>
      have restOthers := fun entry member =>
        others entry (List.mem_cons_of_mem _ member)
      rw [List.cons_append, Coff.touch,
        if_neg (others entry List.mem_cons_self),
        inductionHypothesis restOthers, Option.map_map]
      rfl

namespace DllHashTable

/-! ## Tables as lists -/

/-- The chains of the buckets are these lists. -/
def Represents
    (table : DllHashTable) (chains : Nat → List Coff.DllSymbol) : Prop :=
  table.bucket.length = 10 ∧
    ∃ lists,
      HashChains.Holds table.bucket table.next table.chains.length lists
        table.symbol chains

/-- The first table has no entries. -/
theorem init_represents : init.Represents fun _ => [] :=
  ⟨List.length_replicate, fun _ => [], HashChains.holds_empty _ _ _⟩

variable
  {table : DllHashTable} {chains : Nat → List Coff.DllSymbol}

/-- A name has a bucket. -/
theorem Represents.inRange
    (represents : table.Represents chains) (name : CString) :
    table.bucketOf name < table.bucket.length := by
  apply Nat.mod_lt
  rw [represents.1]
  decide

/-- What the chains hold after one was allocated. -/
theorem symbol_concat
    (chains : List SymbolChain3) (chain : SymbolChain3) {k : Nat}
    (isOld : k < chains.length) :
    ((chains ++ [chain])[k]?).map SymbolChain3.symbol =
      (chains[k]?).map SymbolChain3.symbol := by
  rw [List.getElem?_append_left isOld]

/-- A chain becomes the first of an empty bucket. -/
theorem Represents.link_bucket
    (represents : table.Represents chains) {name : CString}
    (isEmpty : chains (table.bucketOf name) = [])
    {chain : SymbolChain3} (ends : chain.next = none) :
    (table.link chain (.bucket (table.bucketOf name))).Represents
      (Function.update chains (table.bucketOf name) [chain.symbol]) := by
  have inRange := represents.inRange name
  obtain ⟨isTen, lists, holds⟩ := represents
  have noCells := holds.entries _ inRange
  rw [isEmpty, List.map_nil, List.map_eq_nil_iff] at noCells
  refine
    ⟨by simp [link, isTen],
      Function.update lists (table.bucketOf name) [table.chains.length], ?_⟩
  have isLength :
      (table.link chain (.bucket (table.bucketOf name))).chains.length =
        table.chains.length + 1 :=
    List.length_append
  rw [isLength]
  refine holds.start inRange noCells ?_ ?_ ?_ ?_
  · simp [link, next, ends]
  · intro cell _
    exact PointerList.link_append ends cell
  · simp [link, symbol]
  · intro cell isOld
    exact symbol_concat _ _ isOld

/-- A chain is linked behind another one. -/
theorem link_chain
    {lists : Nat → List Nat} (isTen : table.bucket.length = 10)
    (holds :
      HashChains.Holds table.bucket table.next table.chains.length lists
        table.symbol chains)
    {bucket : Nat} (inRange : bucket < table.bucket.length)
    {before after : List Nat} {front : List Coff.DllSymbol} {cell : Nat}
    {here : Coff.DllSymbol} (isLists : lists bucket = before ++ cell :: after)
    (isFront : before.map table.symbol = front.map some)
    (isHere : table.symbol cell = some here)
    {chain : SymbolChain3} (ends : chain.next = none) :
    (table.link chain (.chain cell)).Represents
      (Function.update chains bucket (front ++ [here] ++ [chain.symbol])) := by
  have isCell : cell < table.chains.length := by
    apply holds.inside bucket inRange
    rw [isLists]
    exact List.mem_append_right _ List.mem_cons_self
  have sameLength :
      (table.link chain (.chain cell)).chains.length =
        table.chains.length + 1 := by
    simp [link]
  have links (k : Nat) :
      (table.link chain (.chain cell)).next k =
        if k = cell then some table.chains.length else table.next k :=
    (PointerList.link_append ends k).trans
      (PointerList.link_modify isCell (fun _ => rfl) k)
  have symbols {k : Nat} (isOld : k < table.chains.length) :
      (table.link chain (.chain cell)).symbol k = table.symbol k := by
    have inChains :
        k < (table.chains.modify cell fun before =>
          { before with next := some table.chains.length }).length := by
      rwa [List.length_modify]
    have sameSymbols :
        (table.chains.modify cell fun before =>
            { before with next := some table.chains.length }).map
            SymbolChain3.symbol =
          table.chains.map SymbolChain3.symbol :=
      PointerList.map_modify_of_kept _ _ fun _ => rfl
    refine (symbol_concat _ _ inChains).trans ?_
    rw [← List.getElem?_map, sameSymbols, List.getElem?_map]
    rfl
  refine
    ⟨isTen,
      Function.update lists bucket
        (before ++ [cell] ++ [table.chains.length]), ?_⟩
  rw [sameLength]
  refine
    holds.redirect inRange isLists isFront isHere ?_ ?_ ?_ ?_
      fun other isOld => symbols isOld
  · rw [links, if_pos rfl]
  · simp [link, next, ends]
  · intro other _ isOther
    rw [links, if_neg isOther]
  · simp [link, symbol]

/-- The walk does not find a name that no entry has. -/
theorem walk_of_absent
    {lists : Nat → List Nat}
    (holds :
      HashChains.Holds table.bucket table.next table.chains.length lists
        table.symbol chains)
    {name : CString} (inRange : table.bucketOf name < table.bucket.length)
    (absent :
      ∀ entry ∈ chains (table.bucketOf name), entry.name ≠ name) :
    table.walk name =
      some (.miss (lists (table.bucketOf name)).getLast?) :=
  holds.walk_miss inRange fun entry member => by simp [absent entry member]

/-- The walk finds the first chain of a name. -/
theorem walk_of_split
    {lists : Nat → List Nat}
    (holds :
      HashChains.Holds table.bucket table.next table.chains.length lists
        table.symbol chains)
    {name : CString} (inRange : table.bucketOf name < table.bucket.length)
    {before after : List Nat} {front : List Coff.DllSymbol} {cell : Nat}
    {here : Coff.DllSymbol}
    (isLists : lists (table.bucketOf name) = before ++ cell :: after)
    (isFront : before.map table.symbol = front.map some)
    (isHere : table.symbol cell = some here)
    (others : ∀ entry ∈ front, entry.name ≠ name)
    (sameName : here.name = name) :
    table.walk name = some (.hit cell) :=
  holds.walk_hit inRange isLists isFront isHere
    (fun entry member => by simp [others entry member])
    (by simp [sameName])

/-- An allocation links a chain at the place that was answered. -/
theorem allocDynamicSymbol_of_place
    {name : CString} {ret : Option Place}
    (isPlace : table.lookupPlace name = some ret) (dllname : CString) :
    table.allocDynamicSymbol name dllname =
      some
        (ret.elim table
          (table.link
            { next := none, this := dllname, name := name, ever := 0 })) := by
  rw [allocDynamicSymbol, isPlace, Option.map_some]

/-- The entry that an allocation makes. -/
def fresh (name dllname : CString) : Coff.DllSymbol where
  name := name
  dll := dllname
  ever := 0

/-- An allocation in an empty bucket. -/
theorem Represents.alloc_of_empty
    (represents : table.Represents chains) {name : CString}
    (isEmpty : chains (table.bucketOf name) = []) (dllname : CString) :
    ∃ later,
      table.allocDynamicSymbol name dllname = some later ∧
        later.Represents
          (Function.update chains (table.bucketOf name)
            [fresh name dllname]) := by
  have inRange := represents.inRange name
  obtain ⟨_, lists, holds⟩ := id represents
  have noHead : table.head name = none :=
    (holds.head_eq_none_iff inRange).mpr isEmpty
  have isPlace :
      table.lookupPlace name = some (some (.bucket (table.bucketOf name))) :=
    if_pos noHead
  exact
    ⟨_, allocDynamicSymbol_of_place isPlace dllname,
      represents.link_bucket isEmpty rfl⟩

/-- An allocation of a name that the bucket does not have. -/
theorem Represents.alloc_of_absent
    (represents : table.Represents chains) {name : CString}
    (someEntries : chains (table.bucketOf name) ≠ [])
    (absent : ∀ entry ∈ chains (table.bucketOf name), entry.name ≠ name)
    (dllname : CString) :
    ∃ later,
      table.allocDynamicSymbol name dllname = some later ∧
        later.Represents
          (Function.update chains (table.bucketOf name)
            (chains (table.bucketOf name) ++ [fresh name dllname])) := by
  have inRange := represents.inRange name
  obtain ⟨isTen, lists, holds⟩ := represents
  obtain ⟨front, last, isLast⟩ :=
    (List.eq_nil_or_concat' _).resolve_left someEntries
  obtain ⟨before, cell, after, isLists, isFront, isHere, isBack⟩ :=
    holds.split inRange isLast
  have noAfter : after = [] := List.map_eq_nil_iff.mp isBack
  have someHead : table.head name ≠ none := fun noHead =>
    someEntries ((holds.head_eq_none_iff inRange).mp noHead)
  have isPlace : table.lookupPlace name = some (some (.chain cell)) := by
    rw [lookupPlace, if_neg someHead,
      walk_of_absent holds inRange absent, isLists, noAfter]
    simp
  refine ⟨_, allocDynamicSymbol_of_place isPlace dllname, ?_⟩
  rw [isLast]
  exact link_chain isTen holds inRange isLists isFront isHere rfl

/-- An allocation of a name that the bucket has. -/
theorem Represents.alloc_of_present
    (represents : table.Represents chains) {name : CString}
    {front back : List Coff.DllSymbol} {here : Coff.DllSymbol}
    (isSplit : chains (table.bucketOf name) = front ++ here :: back)
    (others : ∀ entry ∈ front, entry.name ≠ name)
    (sameName : here.name = name) (dllname : CString) :
    ∃ later,
      table.allocDynamicSymbol name dllname = some later ∧
        later.Represents
          (Function.update chains (table.bucketOf name)
            (front ++ here ::
              back.head?.elim [] fun successor =>
                [successor, fresh name dllname])) := by
  have inRange := represents.inRange name
  obtain ⟨isTen, lists, holds⟩ := id represents
  obtain ⟨before, cell, after, isLists, isFront, isHere, isBack⟩ :=
    holds.split inRange isSplit
  have someHead : table.head name ≠ none := by
    intro noHead
    have noEntries := (holds.head_eq_none_iff inRange).mp noHead
    rw [isSplit] at noEntries
    exact
      List.append_ne_nil_of_right_ne_nil _ (List.cons_ne_nil _ _) noEntries
  have isNext : table.next cell = after.head? := by
    have linked := holds.linked _ inRange
    rw [isLists] at linked
    exact linked.suffix.2.head_eq
  have isPlace :
      table.lookupPlace name = some (after.head?.map .chain) := by
    rw [lookupPlace, if_neg someHead,
      walk_of_split holds inRange isLists isFront isHere others sameName,
      ← isNext]
    rfl
  refine ⟨_, allocDynamicSymbol_of_place isPlace dllname, ?_⟩
  cases back with
  | nil =>
      have noAfter : after = [] := List.map_eq_nil_iff.mp isBack
      have unchanged :
          Function.update chains (table.bucketOf name) (front ++ [here]) =
            chains := by
        rw [← isSplit, Function.update_eq_self]
      rw [noAfter]
      change table.Represents (Function.update chains _ (front ++ [here]))
      rw [unchanged]
      exact represents
  | cons successor rest =>
      obtain ⟨following, others, rfl, isFollowing, _⟩ :=
        List.map_eq_cons_iff.mp isBack
      have isLater :
          lists (table.bucketOf name) =
            (before ++ [cell]) ++ following :: others := by
        rw [isLists, List.append_assoc]
        rfl
      have isFrontLater :
          (before ++ [cell]).map table.symbol =
            (front ++ [here]).map some := by
        simp [isFront, isHere]
      have sameEntries :
          front ++ here :: [successor, fresh name dllname] =
            front ++ [here] ++ [successor] ++ [fresh name dllname] := by
        simp
      change
        Represents _
          (Function.update chains _
            (front ++ here :: [successor, fresh name dllname]))
      rw [sameEntries]
      exact
        link_chain isTen holds inRange isLater isFrontLater isFollowing rfl

/-- An allocation changes the list of one bucket. -/
theorem Represents.allocDynamicSymbol
    (represents : table.Represents chains) (name dllname : CString) :
    ∃ later,
      table.allocDynamicSymbol name dllname = some later ∧
        later.Represents
          (Function.update chains (table.bucketOf name)
            (linkBehind (fresh name dllname)
              (chains (table.bucketOf name)))) := by
  cases isFound :
      (chains (table.bucketOf name)).find? fun entry =>
        decide (entry.name = name) with
  | none =>
      have absent :
          ∀ entry ∈ chains (table.bucketOf name), entry.name ≠ name := by
        simpa using isFound
      have isAppended :
          linkBehind (fresh name dllname) (chains (table.bucketOf name)) =
            chains (table.bucketOf name) ++ [fresh name dllname] := by
        conv_lhs => rw [← List.append_nil (chains (table.bucketOf name))]
        exact linkBehind_append absent []
      rw [isAppended]
      by_cases isEmpty : chains (table.bucketOf name) = []
      · rw [isEmpty]
        exact represents.alloc_of_empty isEmpty dllname
      · exact represents.alloc_of_absent isEmpty absent dllname
  | some here =>
      obtain ⟨sameName, front, back, isSplit, isFirst⟩ :=
        List.find?_eq_some_iff_append.mp isFound
      have others : ∀ entry ∈ front, entry.name ≠ name := by
        simpa using isFirst
      have isHere : here.name = name := by simpa using sameName
      have isFresh : here.name = (fresh name dllname).name := isHere
      rw [isSplit, linkBehind_append others, linkBehind, if_pos isFresh]
      exact represents.alloc_of_present isSplit others isHere dllname

/-- A stub address is noted in one chain. -/
theorem setEver
    {lists : Nat → List Nat} (isTen : table.bucket.length = 10)
    (holds :
      HashChains.Holds table.bucket table.next table.chains.length lists
        table.symbol chains)
    {bucket : Nat} (inRange : bucket < table.bucket.length)
    {before after : List Nat} {front back : List Coff.DllSymbol} {cell : Nat}
    {here : Coff.DllSymbol} (isLists : lists bucket = before ++ cell :: after)
    (isFront : before.map table.symbol = front.map some)
    (isHere : table.symbol cell = some here)
    (isBack : after.map table.symbol = back.map some) (ever : U32) :
    Represents
      { table with
        chains :=
          table.chains.modify cell fun chain => { chain with ever := ever } }
      (Function.update chains bucket
        (front ++ { here with ever := ever } :: back)) := by
  refine ⟨isTen, lists, ?_⟩
  have sameLength :
      (table.chains.modify cell fun chain =>
        { chain with ever := ever }).length = table.chains.length :=
    List.length_modify ..
  rw [sameLength]
  refine holds.change inRange isLists isFront isBack ?_ ?_ ?_
  · intro one _
    have sameLink (chain : SymbolChain3) :
        SymbolChain3.next { chain with ever := ever } = chain.next := rfl
    exact PointerList.link_modify_of_kept cell sameLink one
  · obtain ⟨chain, isChain, rfl⟩ := Option.map_eq_some_iff.mp isHere
    simp [symbol, isChain, SymbolChain3.symbol]
  · intro one _ isOther
    simp [symbol, List.getElem?_modify_ne _ _ (Ne.symm isOther)]

/-- A lookup does to the list of the bucket what `touch` does. -/
theorem Represents.lookupDynamicSymbol
    (represents : table.Represents chains) (pltOffset : U32)
    (name : CString) :
    ∃ later,
      table.lookupDynamicSymbol pltOffset name =
          some
            (later,
              (Coff.touch pltOffset name
                (chains (table.bucketOf name))).map Prod.snd) ∧
        later.Represents
          (Function.update chains (table.bucketOf name)
            ((Coff.touch pltOffset name
              (chains (table.bucketOf name))).elim
                (chains (table.bucketOf name)) Prod.fst)) := by
  have inRange := represents.inRange name
  obtain ⟨isTen, lists, holds⟩ := id represents
  cases isFound :
      (chains (table.bucketOf name)).find? fun entry =>
        decide (entry.name = name) with
  | none =>
      have absent :
          ∀ entry ∈ chains (table.bucketOf name), entry.name ≠ name := by
        simpa using isFound
      have noTouch := touch_of_absent pltOffset absent
      refine ⟨table, ?_, ?_⟩
      · rw [DllHashTable.lookupDynamicSymbol,
          walk_of_absent holds inRange absent, noTouch]
        rfl
      · rw [noTouch, Option.elim_none, Function.update_eq_self]
        exact represents
  | some here =>
      obtain ⟨sameName, front, back, isSplit, isFirst⟩ :=
        List.find?_eq_some_iff_append.mp isFound
      have others : ∀ entry ∈ front, entry.name ≠ name := by
        simpa using isFirst
      have isHere : here.name = name := by simpa using sameName
      obtain ⟨before, cell, after, isLists, isFront, isCell, isBack⟩ :=
        holds.split inRange isSplit
      obtain ⟨chain, isChain, rfl⟩ := Option.map_eq_some_iff.mp isCell
      have isWalk :=
        walk_of_split holds inRange isLists isFront isCell others isHere
      rw [DllHashTable.lookupDynamicSymbol, isWalk, isSplit,
        touch_append pltOffset others, Option.bind_some]
      simp only [isChain, Option.map_some]
      by_cases unset : chain.symbol.ever = 0
      · have isTouch :
            Coff.touch pltOffset name (chain.symbol :: back) =
              some
                ({ chain.symbol with ever := pltOffset } :: back,
                  chain.this, 0) := by
          rw [Coff.touch, if_pos isHere, if_pos unset]
          rfl
        have isSet : chain.ever = 0 := unset
        rw [isTouch, Option.map_some, if_pos isSet]
        exact
          ⟨_, rfl,
            setEver isTen holds inRange isLists isFront isCell isBack _⟩
      · have isTouch :
            Coff.touch pltOffset name (chain.symbol :: back) =
              some (chain.symbol :: back, chain.this, chain.ever) := by
          rw [Coff.touch, if_pos isHere, if_neg unset]
          rfl
        have isKept : ¬ chain.ever = 0 := unset
        rw [isTouch, Option.map_some, if_neg isKept]
        refine ⟨table, rfl, ?_⟩
        rw [Option.elim_some, ← isSplit, Function.update_eq_self]
        exact represents

end DllHashTable

end BinTools.CoffDictionary
