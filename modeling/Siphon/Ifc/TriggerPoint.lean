import Siphon.Library.IndexMap
import Siphon.Library.Utf8
import Siphon.Library.Words

/-!
# Trigger points of initial filter criteria

A trigger point is a list of service point triggers, each in some groups: an AND of the ORs of the
groups (CNF) or an OR of their ANDs (DNF).  When a trigger point is built, a method it seems to
require is kept beside it, and a request of another method is turned away without a look at the
triggers.
-/

namespace Siphon.Ifc

open Text (eqIgnoreAsciiCase)

/-- Regular expressions: `Regex::new` and `Regex::is_match`. -/
class StdRegex where
  compile : Text → Option (Text → Bool)

inductive SessionCase where
  | originating
  | terminating
  | originatingUnregistered
  | terminatingUnregistered
  | originatingCdiv
deriving DecidableEq

structure ServicePointTrigger where
  conditionNegated : Bool
  group : List ℤ
  method : Option Text
  header : Option (Text × Option Text)
  requestUri : Option Text
  sessionCase : Option SessionCase
  sdpLine : Option (Text × Option Text)

structure TriggerPoint where
  conditionTypeCnf : Bool
  servicePointTriggers : List ServicePointTrigger
  methodFastPath : Option Text

/-- The parts of a request that the triggers read. -/
structure IfcRequest where
  method : Text
  requestUri : Text
  headers : List (Text × Text)
  sessionCase : SessionCase
  body : Option Text

/-! ### Building -/

/-- Whether no other trigger names a group that this one names. -/
def groupAlone (spts : List ServicePointTrigger) (spt : ServicePointTrigger) : Bool :=
  if spt.group.isEmpty then spts.countP (·.group.isEmpty) == 1
  else spt.group.all fun index => spts.countP (·.group.contains index) == 1

/-- The first method trigger, not negated, that is alone in its groups. -/
def requiredTrigger (spts : List ServicePointTrigger) : Option ServicePointTrigger :=
  spts.find? fun spt => !(spt.conditionNegated || spt.method.isNone) && groupAlone spts spt

def computeMethodFastPath (conditionTypeCnf : Bool) (spts : List ServicePointTrigger) :
    Option Text :=
  match spts with
  | [spt] => if !spt.conditionNegated then spt.method.map Text.toAsciiLowercase else none
  | spts =>
    if conditionTypeCnf then
      (requiredTrigger spts).bind fun spt => spt.method.map Text.toAsciiLowercase
    else none

structure TriggerPointBuilder where
  conditionTypeCnf : Option Bool
  spts : List ServicePointTrigger

def TriggerPointBuilder.build (builder : TriggerPointBuilder) : TriggerPoint :=
  let conditionTypeCnf := builder.conditionTypeCnf.getD true
  ⟨conditionTypeCnf, builder.spts, computeMethodFastPath conditionTypeCnf builder.spts⟩

/-! ### Evaluating -/

section

variable [StdRegex]

/-- Whether a text matches a regular expression; one that does not compile is a literal. -/
def patternMatches (pattern text : Text) : Bool :=
  match StdRegex.compile pattern with
  | some isMatch => isMatch text
  | none => (Slice.position pattern text).isSome

/-- The fields of an SDP body.  A line end is trimmed with the carriage returns before it. -/
def sdpFields (body : Text) : List (Text × Text) :=
  (body.splitOn '\n').filterMap fun line =>
    match Slice.splitOnceP (· == '=') (line.rdropWhile (· == '\r')) with
    | some (fieldType, value) =>
      if (Utf8.encode fieldType).length = 1 then some (fieldType, value) else none
    | none => none

variable (spt : ServicePointTrigger)

/-- The condition of a trigger before negation: the first that the trigger has. -/
def evaluateSptCondition (request : IfcRequest) : Bool :=
  if let some expectedMethod := spt.method then
    eqIgnoreAsciiCase request.method expectedMethod
  else if let some (headerName, contentPattern) := spt.header then
    let matchingHeaders :=
      (request.headers.filter fun header => eqIgnoreAsciiCase header.1 headerName).map Prod.snd
    if matchingHeaders.isEmpty then false
    else
      match contentPattern with
      | some pattern => matchingHeaders.any fun value => patternMatches pattern value
      | none => true
  else if let some uriPattern := spt.requestUri then
    patternMatches uriPattern request.requestUri
  else if let some expectedCase := spt.sessionCase then
    request.sessionCase == expectedCase
  else if let some (linePattern, contentPattern) := spt.sdpLine then
    match request.body with
    | none => false
    | some body =>
      (sdpFields body).any fun field =>
        patternMatches linePattern field.1 &&
          contentPattern.all fun pattern => patternMatches pattern field.2
  else false

def evaluateSpt (request : IfcRequest) : Bool :=
  let rawResult := evaluateSptCondition spt request
  if spt.conditionNegated then !rawResult else rawResult

/-- The groups a trigger is in; without one it is in group 0. -/
def ServicePointTrigger.groups : List ℤ :=
  if spt.group.isEmpty then [0] else spt.group

def evaluateTriggerPoint (trigger : TriggerPoint) (request : IfcRequest) : Bool :=
  if trigger.servicePointTriggers.isEmpty then true
  else if trigger.methodFastPath.any fun required => !eqIgnoreAsciiCase request.method required then
    false
  else
    match trigger.servicePointTriggers with
    | [spt] => evaluateSpt spt request
    | spts =>
      let groups := IndexMap.groupBy ServicePointTrigger.groups spts
      if trigger.conditionTypeCnf then
        groups.entries.all fun group => group.2.any fun spt => evaluateSpt spt request
      else
        groups.entries.any fun group => group.2.all fun spt => evaluateSpt spt request

end

end Siphon.Ifc
