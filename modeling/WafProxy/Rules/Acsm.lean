import Mathlib.Algebra.Ring.Nat
import Mathlib.Logic.Function.Basic
import WafProxy.Lib.BreadthFirst
import WafProxy.Lib.CString
import WafProxy.Packet

/-
  The multi-pattern search engine — acsmx.c

  Patterns are registered one by one, compiled into a table of states, and
  searched for in a text in one pass. The state table is a function of the state
  number, read and written only below `acsmMaxStates`: what goes out of it, and
  out of the buffers of the search, is `none`.

  Correspondence (C ↔ Lean):
    `ACSM_PATTERN`, `ACSM_STATETABLE`       ↔ `Pattern`, `StateTable`
    `ACSM_STRUCT`                           ↔ `Struct`
    `ACSM_FAIL_STATE`                       ↔ `none` in `nextState`
    `xlatcase`, `ConvertCaseEx`             ↔ `xlatcase`, `convertCaseEx`
    `QUEUE`, `queue_add`, `queue_remove`    ↔ a list, `++ [s]`, its head
    `acsmAddPattern`                        ↔ `acsmAddPattern`
    `AddMatchListEntry`                     ↔ `addMatchListEntry`
    `AddPatternStates`, its two `for`s      ↔ `addPatternStates`, `matchStates`, `addStates`
    `Build_NFA`: the `for` over state 0, the
    `for` over the bytes, the inner `while` ↔ `buildNFA`: `queueRoot`, `buildByte`, `nextValid`
    `Convert_NFA_To_DFA`                    ↔ `convertNFAToDFA`: `queueRoot`, `convertByte`
    `acsmCompile`                           ↔ `acsmCompile`
    `acsmSearch`, its two `for`s            ↔ `acsmSearch`, `searchStates`, `searchList`

  `DETECTION_OPTION_TREE` is not defined. A `calloc` that fails ends the program;
  `bcSize` and `bcShift` are not used.
-/

namespace WafProxy.Acsm
open Lib

/-! ## Data -/

/-- `toupper`, in the C locale. -/
def xlatcase (b : Byte) : Byte := if islower b then b - 32 else b

def convertCaseEx (s : List Byte) : List Byte := s.map xlatcase

/-- `ACSM_PATTERN`: the two spellings agree, and `n` is their length. -/
structure Pattern (ι : Type) where
  patrn : List Byte
  casepatrn : List Byte
  n : Nat
  nocase : Int
  offset : Int
  depth : Int
  id : ι
  iid : Int
  upper : patrn = convertCaseEx casepatrn
  size : casepatrn.length = n

/-- `ACSM_STATETABLE`. -/
structure StateTable (ι : Type) where
  nextState : Byte → Option Nat := fun _ => none
  failState : Nat := 0
  matchList : List (Pattern ι) := []

/-- `ACSM_STRUCT`. -/
structure Struct (ι : Type) where
  acsmMaxStates : Nat := 0
  acsmNumStates : Nat := 0
  acsmPatterns : List (Pattern ι) := []
  acsmStateTable : Nat → StateTable ι := fun _ => {}

/-- `0 .. ALPHABET_SIZE - 1`. -/
def alphabet : List Byte := (List.range 256).map UInt8.ofNat

/-- `sizeof (ACSM_STATETABLE)`. -/
def STATETABLE_SIZE : Nat := 1040

/-- The bytes of `Tc`. -/
def TC_SIZE : Nat := 64 * 1024

section
variable {ι : Type}

/-- `acsmStateTable[s]`, for reading and for writing. -/
def Struct.entry (a : Struct ι) (s : Nat) : Option (StateTable ι) :=
  if s < a.acsmMaxStates then some (a.acsmStateTable s) else none

def Struct.put (a : Struct ι) (s : Nat) (e : StateTable ι) : Option (Struct ι) :=
  if s < a.acsmMaxStates then some { a with acsmStateTable := Function.update a.acsmStateTable s e }
  else none

/-- `acsmAddPattern`; it reads `n` bytes of `pat`. -/
def acsmAddPattern (a : Struct ι) (pat : List Byte) (n : Nat) (nocase offset depth : Int) (id : ι)
    (iid : Int) : Option (Struct ι) :=
  if h : n ≤ pat.length then
    let plist : Pattern ι := {
      patrn := convertCaseEx (pat.take n), casepatrn := pat.take n, n := n, nocase := nocase,
      offset := offset, depth := depth, id := id, iid := iid, upper := rfl,
      size := List.length_take_of_le h }
    some { a with acsmPatterns := plist :: a.acsmPatterns }
  else none

/-! ## The states of the patterns -/

def addMatchListEntry (a : Struct ι) (state : Nat) (px : Pattern ι) : Option (Struct ι) := do
  let e ← a.entry state
  a.put state { e with matchList := px :: e.matchList }

/-- "Match up pattern with existing states": where it ends, and what is left. -/
def matchStates (a : Struct ι) : Nat → List Byte → Option (Nat × List Byte)
  | state, [] => some (state, [])
  | state, c :: w => do
    let e ← a.entry state
    match e.nextState c with
    | none => some (state, c :: w)
    | some next => matchStates a next w

/-- "Add new states for the rest of the pattern bytes, 1 state per byte". -/
def addStates : Struct ι → Nat → List Byte → Option (Struct ι × Nat)
  | a, state, [] => some (a, state)
  | a, state, c :: w => do
    let e ← a.entry state
    let new := a.acsmNumStates + 1
    let a ← Struct.put { a with acsmNumStates := new } state
      { e with nextState := Function.update e.nextState c (some new) }
    addStates a new w

def addPatternStates (a : Struct ι) (p : Pattern ι) : Option (Struct ι) := do
  let (state, w) ← matchStates a 0 p.patrn
  let (a, state) ← addStates a state w
  addMatchListEntry a state p

/-! ## The failure states -/

/-- A `for` over state 0: queue the states it leads to, and set their failure state
(`setFail`). -/
def queueRoot (setFail : Bool) (out : Struct ι × List Nat) (i : Byte) : Option (Struct ι × List Nat) := do
  let e ← out.1.entry 0
  let s ← e.nextState i
  if s = 0 then some out
  else if setFail then do
    let es ← out.1.entry s
    let a ← out.1.put s { es with failState := 0 }
    some (a, out.2 ++ [s])
  else some (out.1, out.2 ++ [s])

/-- "Locate the next valid state for 'i'". -/
def nextValid (a : Struct ι) (i : Byte) : Nat → Nat → Option Nat
  | 0, _ => none
  | fuel + 1, fs => do
    let e ← a.entry fs
    match e.nextState i with
    | none => nextValid a i fuel e.failState
    | some next => some next

/-- The copies of the match list of `next`, each put in front of that of `s`. -/
def copyMatchList (a : Struct ι) (next s : Nat) : Option (Struct ι) := do
  let e ← a.entry next
  e.matchList.foldlM (fun a px => addMatchListEntry a s px) a

/-- One pass of the `for` over the bytes, for state `r`. -/
def buildByte (r : Nat) (out : Struct ι × List Nat) (i : Byte) : Option (Struct ι × List Nat) := do
  let e ← out.1.entry r
  match e.nextState i with
  | none => some out
  | some s => do
    let next ← nextValid out.1 i out.1.acsmMaxStates e.failState
    let es ← out.1.entry s
    let a ← out.1.put s { es with failState := next }
    let a ← copyMatchList a next s
    some (a, out.2 ++ [s])

def buildState (r : Nat) (out : Struct ι × List Nat) : Option (Struct ι × List Nat) :=
  alphabet.foldlM (buildByte r) out

def buildNFA (a : Struct ι) : Option (Struct ι) := do
  let out ← alphabet.foldlM (queueRoot true) (a, [])
  queueLoop buildState a.acsmMaxStates out

/-! ## The transitions -/

def convertByte (r : Nat) (out : Struct ι × List Nat) (i : Byte) : Option (Struct ι × List Nat) := do
  let e ← out.1.entry r
  match e.nextState i with
  | some s => some (out.1, out.2 ++ [s])
  | none => do
    let ef ← out.1.entry e.failState
    let a ← out.1.put r { e with nextState := Function.update e.nextState i (ef.nextState i) }
    some (a, out.2)

def convertState (r : Nat) (out : Struct ι × List Nat) : Option (Struct ι × List Nat) :=
  alphabet.foldlM (convertByte r) out

def convertNFAToDFA (a : Struct ι) : Option (Struct ι) := do
  let out ← alphabet.foldlM (queueRoot false) (a, [])
  queueLoop convertState a.acsmMaxStates out

/-! ## The whole -/

/-- "Set all failed state transitions to return to the 0'th state". -/
def fillRoot (a : Struct ι) (i : Byte) : Option (Struct ι) := do
  let e ← a.entry 0
  match e.nextState i with
  | none => a.put 0 { e with nextState := Function.update e.nextState i (some 0) }
  | some _ => some a

/-- The states `acsmCompile` counts. -/
def maxStates (ps : List (Pattern ι)) : Nat := 1 + (ps.map fun p => p.n).sum

/-- `acsmCompile`; `AC_MALLOC` takes an `int`. -/
def acsmCompile (a : Struct ι) : Option (Struct ι) :=
  if STATETABLE_SIZE * maxStates a.acsmPatterns < 2 ^ 31 then do
    let a : Struct ι := { a with
      acsmMaxStates := maxStates a.acsmPatterns, acsmNumStates := 0, acsmStateTable := fun _ => {} }
    let a ← a.acsmPatterns.foldlM addPatternStates a
    let a ← alphabet.foldlM fillRoot a
    let a ← buildNFA a
    convertNFAToDFA a
  else none

end

/-! ## The search -/

/-- `nfound`, `*data`, and whether `Match` has ended the search. -/
structure Found (δ : Type) where
  nfound : Nat
  data : δ
  stop : Bool
  deriving DecidableEq, Repr

section
variable {ι δ : Type} (hook : ι → Int → δ → Int × δ)

/-- `nfound++`, and the call of `Match`. -/
def callMatch (p : Pattern ι) (index : Int) (f : Found δ) : Found δ :=
  let ret := hook p.id index f.data
  { nfound := f.nfound + 1, data := ret.2, stop := 0 < ret.1 }

/-- The `for` over a match list, for the byte of the text at `pos`. -/
def searchList (Tx : List Byte) (pos : Nat) : List (Pattern ι) → Found δ → Option (Found δ)
  | [], f => some f
  | p :: ps, f =>
    let index : Int := pos + 1 - p.n
    if p.nocase ≠ 0 then
      let f := callMatch hook p index f
      if f.stop then some f else searchList Tx pos ps f
    else if index < 0 then none
    else if (Tx.drop index.toNat).take p.n = p.casepatrn then
      let f := callMatch hook p index f
      if f.stop then some f else searchList Tx pos ps f
    else searchList Tx pos ps f

/-- The `for` over the text, on what is left of `Tc`. -/
def searchStates (a : Struct ι) (Tx : List Byte) : Nat → Nat → List Byte → Found δ → Option (Nat × Found δ)
  | _, state, [], f => some (state, f)
  | pos, state, c :: T, f => do
    let e ← a.entry state
    let state ← e.nextState c
    let e ← a.entry state
    let f ← searchList hook Tx pos e.matchList f
    if f.stop then some (state, f) else searchStates a Tx (pos + 1) state T f

/-- `acsmSearch`: what it returns, `*data` and `*current_state`; `current_state` may be NULL. -/
def acsmSearch (a : Struct ι) (Tx : List Byte) (data : δ) (current_state : Option Nat) :
    Option (Nat × δ × Option Nat) :=
  if TC_SIZE < Tx.length then none
  else
    match current_state with
    | none => some (0, data, none)
    | some state => do
      let (state, f) ← searchStates hook a Tx 0 state (convertCaseEx Tx) ⟨0, data, false⟩
      some (f.nfound, f.data, some state)

end

end WafProxy.Acsm
