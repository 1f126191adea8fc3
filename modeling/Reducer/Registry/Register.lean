/-
Registration.

Declarations are first checked, all of them, and only then recorded, so a batch
that is refused leaves nothing behind.  Refused is a batch for a group with other
redirects, a reaction without a payload, an effect without a place or without an
effect, and a reaction whose action type already has other redirects; the first
fault in the order of the declarations is the one reported.

Recording replaces a creator, selector or thunk of the same name in place, while the
effects of a reaction are added to those its action type has.
-/
import Reducer.Registry.Basic

namespace Reducer.Registry

/-! ### Checking -/

/-- A place and something to do there. -/
def checkEffect (type : String) (effect : SliceEffect) : Except Fault Unit :=
  if effect.slice.isEmpty then .error (.emptySlice type)
  else if effect.effect.isNone then .error (.missingEffect type effect.slice.text)
  else .ok ()

/-- The redirects of a type that is registered already are those given. -/
def checkRedirects (registry : Registry) (redirects : Option Redirects) (type : String) :
    Except Fault Unit :=
  if (registry.creator? type).isSome && !Redirects.eqvOption (registry.redirects? type) redirects then
    .error (.redirectsConflict type)
  else .ok ()

/-- What a reaction must have; selectors and thunks need nothing. -/
def checkEntry (registry : Registry) (redirects : Option Redirects) (group : Option String)
    (name : String) (entry : Entry) : Except Fault Unit := do
  let .reaction reaction := entry | return ()
  let type := qualify group name
  if reaction.payload.isNone then throw (.missingPayload type)
  reaction.effects.forM (checkEffect type)
  registry.checkRedirects redirects type

/-- A group that is registered already has the redirects given. -/
def checkGroup (registry : Registry) (redirects : Option Redirects) :
    Option String → Except Fault Unit
  | none => .ok ()
  | some group => match Table.get? registry.groups group with
    | some scope =>
        if Redirects.eqvOption scope.redirects redirects then .ok ()
        else .error (.redirectsConflict group)
    | none => .ok ()

/-- The group first, then every entry in order. -/
def check (registry : Registry) (batch : List Declarations) (redirects : Option Redirects)
    (group : Option String) : Except Fault Unit := do
  registry.checkGroup redirects group
  batch.forM fun declarations =>
    declarations.forM fun entry => registry.checkEntry redirects group entry.1 entry.2

/-! ### Recording -/

/-- Changes the scope of a group, making the group at the end if there is none. -/
def updateScope (registry : Registry) (group : Option String) (change : Scope → Scope) : Registry :=
  match group with
  | none => { registry with root := change registry.root }
  | some group =>
      { registry with
        groups := Table.update registry.groups group fun scope => change (scope.getD Scope.empty) }

/-- Puts the effects of a reaction into a trie, each at the steps of its slice. -/
def addEffects (redirects : Option Redirects) (trie : Trie Effect) : List SliceEffect → Trie Effect
  | [] => trie
  | ⟨slice, some effect⟩ :: rest =>
      addEffects redirects (trie.insert (slice.steps redirects) effect) rest
  | ⟨_, none⟩ :: rest => addEffects redirects trie rest

/-- Records a reaction: its creator, its redirects, and its effects if it has any. -/
def recordReaction (registry : Registry) (redirects : Option Redirects) (group : Option String)
    (name : String) (payload : PayloadOf) (effects : List SliceEffect) : Registry :=
  let type := qualify group name
  let creator : Creator := ⟨type, payload⟩
  let registry := registry.updateScope group fun scope =>
    { scope with creators := Table.set scope.creators name creator }
  { registry with
    creators := Table.set registry.creators type creator
    redirects := match redirects with
      | some redirects => Table.set registry.redirects type redirects
      | none => registry.redirects
    tries := if effects.isEmpty then registry.tries
      else Table.update registry.tries type fun trie =>
        addEffects redirects (trie.getD Trie.empty) effects }

/-- Records one entry. -/
def recordEntry (registry : Registry) (redirects : Option Redirects) (group : Option String)
    (name : String) (entry : Entry) : Registry :=
  match entry with
  | .reaction ⟨some payload, effects⟩ =>
      registry.recordReaction redirects group name payload effects
  | .reaction ⟨none, _⟩ => registry
  | .selector selector => registry.updateScope group fun scope =>
      { scope with selectors := Table.set scope.selectors name selector }
  | .thunk thunk => registry.updateScope group fun scope =>
      { scope with thunks := Table.set scope.thunks name thunk }

/-- Opens the scope, which makes its group, and gives it the redirects if there are any. -/
def openScope (registry : Registry) (redirects : Option Redirects) (group : Option String) :
    Registry :=
  registry.updateScope group fun scope =>
    match redirects with
    | some redirects => { scope with redirects := some redirects }
    | none => scope

/-- Records every entry, in order. -/
def record (registry : Registry) (batch : List Declarations) (redirects : Option Redirects)
    (group : Option String) : Registry :=
  batch.foldl (fun registry declarations =>
      declarations.foldl (fun registry entry =>
        registry.recordEntry redirects group entry.1 entry.2) registry)
    (registry.openScope redirects group)

/-- Registers a batch into a scope, all of it or nothing. -/
def register (registry : Registry) (batch : List Declarations) (redirects : Option Redirects)
    (group : Option String) : Except Fault Registry := do
  registry.check batch redirects group
  return registry.record batch redirects group

end Reducer.Registry
