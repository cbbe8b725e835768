import RouterShift.Package.Manifest
import RouterShift.Text.Pattern

/-! What a failed update complains of. The wording is that of programs that may change it at any
    time; a complaint in other words gets no diagnosis, and so no repair. Of several complaints in
    one text the wrong version of npm comes first, then peers that are missing, then peers that
    do not fit. -/

namespace RouterShift.Upgrade

/-- A package whose peer dependency does not fit, in the words of the complaint. -/
structure PeerConflict where
  package : String
  peer : String
  detail : String
  deriving Repr, DecidableEq

/-- The range that a package requires of its peer, and the version there would be instead. -/
structure Clash where
  required : String
  wouldInstall : String
  deriving Repr, DecidableEq

/-- What a failed update complains of. -/
inductive Diagnosis
  /-- Another version of npm is needed; which one, if the text says it. -/
  | npmVersion (required : Option String)
  /-- Peers that are required in other ranges. -/
  | unmetPeers (updates : List DependencyUpdate)
  | incompatiblePeers (conflicts : List PeerConflict)
  deriving Repr, DecidableEq

/-! ### The wording -/

def npmMarker : String := "The Angular CLI currently requires npm version"

def conflictMarker : String := "Incompatible peer dependencies found"

/-- Where the required version of npm is looked for, in this order. -/
def npmPatterns : List Text.Pattern := [
  [.wording "npm@", .version 1],
  [.wording "requires npm version ", .version 1],
  [.wording "npm version ", .version 3, .wording " detected"]]

def peerPattern : Text.Pattern := [
  .wording "requires a peer of ", .word, .wording " \"", .without '"', .wording "\""]

def conflictPattern : Text.Pattern := [
  .wording "Package \"", .without '"',
  .wording "\" has an incompatible peer dependency to \"", .without '"',
  .wording "\" (", .without ')', .wording ")"]

def clashPattern : Text.Pattern := [
  .wording "requires \"", .without '"', .wording "\", would install \"", .without '"',
  .wording "\""]

/-! ### Diagnosis -/

/-- The fields of a missing peer. -/
def update? : List String → Option DependencyUpdate
  | [name, range] => some ⟨name, range⟩
  | _ => none

/-- The fields of a peer that does not fit. -/
def conflict? : List String → Option PeerConflict
  | [package, peer, detail] => some ⟨package, peer, detail⟩
  | _ => none

/-- What does not fit, if the detail of a conflict says it. -/
def PeerConflict.clash? (c : PeerConflict) : Option Clash :=
  match clashPattern.first? c.detail.toList with
  | some ([required, wouldInstall], _) => some ⟨required, wouldInstall⟩
  | _ => none

/-- The version of npm that a text asks for. -/
def requiredNpm? (text : List Char) : Option String :=
  (npmPatterns.findSome? fun p => p.first? text).bind fun (fields, _) => fields.head?

namespace Diagnosis

/-- The diagnosis of a text; none for a complaint that is not known. -/
def ofText? (text : String) : Option Diagnosis :=
  let cs := text.toList
  if Text.mentions npmMarker.toList cs then some (.npmVersion (requiredNpm? cs))
  else if peerPattern.occursIn cs then
    some (.unmetPeers ((peerPattern.all cs).filterMap update?))
  else if Text.mentions conflictMarker.toList cs then
    some (.incompatiblePeers ((conflictPattern.all cs).filterMap conflict?))
  else none

/-- The short name of a kind of complaint. -/
def name : Diagnosis → String
  | npmVersion _ => "npm-version-mismatch"
  | unmetPeers _ => "unmet-peer"
  | incompatiblePeers _ => "incompatible-peers"

end Diagnosis
end RouterShift.Upgrade
