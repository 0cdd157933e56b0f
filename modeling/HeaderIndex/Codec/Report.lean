import HeaderIndex.Check
import HeaderIndex.Codec.Catalogue
import HeaderIndex.Report

/-! Reports, check rules and problems as JSON. -/

namespace HeaderIndex

open Json (required)

def Failure.toJson (f : Failure) : Except Json.Error Json := do
  return .object [("path", ← f.path.toJson), ("error", .string f.error)]

def Failure.ofJson? (j : Json) : Option Failure := do
  match ← j.fields? ["path", "error"] with
  | [path, error] => return ⟨← required Path.ofJson? path, ← required Json.string? error⟩
  | _ => none

def Stats.toJson (s : Stats) : Json :=
  .object [("files_scanned", .nat s.filesScanned), ("files_failed", .nat s.filesFailed),
    ("symbols", .nat s.symbols), ("elapsed_ms", .nat s.elapsedMs)]

def Stats.ofJson? (j : Json) : Option Stats := do
  match ← j.fields? ["files_scanned", "files_failed", "symbols", "elapsed_ms"] with
  | [scanned, failed, symbols, elapsed] =>
    return ⟨← required Json.word? scanned, ← required Json.word? failed,
      ← required Json.word? symbols, ← required Json.word? elapsed⟩
  | _ => none

def Report.toJson (r : Report) : Except Json.Error Json := do
  return .object [("result", ← r.catalogue.toJson),
    ("failures", .array (← r.failures.mapM Failure.toJson)), ("stats", r.stats.toJson)]

def Report.ofJson? (j : Json) : Option Report := do
  match ← j.fields? ["result", "failures", "stats"] with
  | [catalogue, failures, stats] =>
    return ⟨← required Catalogue.ofJson? catalogue,
      ← required (Json.list? Failure.ofJson?) failures, ← required Stats.ofJson? stats⟩
  | _ => none

def CheckRules.toJson (r : CheckRules) : Json :=
  .object [("min_length", .nat r.minLength), ("suspicious", .ofStrings r.suspicious)]

def CheckRules.ofJson? (j : Json) : Option CheckRules := do
  match ← j.fields? ["min_length", "suspicious"] with
  | [minLength, suspicious] =>
    return ⟨← required Json.word? minLength, ← required Json.strings? suspicious⟩
  | _ => none

/-- A reason is an object of its tag and, if it has one, its token. -/
def Reason.toJson : Reason → Json
  | tooShort => .object [("reason", .string "too_short")]
  | suspicious token => .object [("reason", .string "suspicious"), ("token", .string token)]

/-- The reason with a tag. A missing token and a null one are the same only where
none is wanted. -/
def Reason.ofTag? (tag : String) (token : Option Json) : Option Reason :=
  match tag, token with
  | "too_short", none => some .tooShort
  | "too_short", some .null => some .tooShort
  | "suspicious", some (.string s) => some (.suspicious s)
  | _, _ => none

/-- A reason may also be an array of exactly its tag and its token. -/
def Reason.ofJson? : Json → Option Reason
  | .object members => do
    let tag ← ((Json.object members).get? "reason").bind Json.tag?
    Reason.ofTag? tag ((Json.object members).get? "token")
  | .array [tag, token] => do Reason.ofTag? (← tag.tag?) (some token)
  | _ => none

def Problem.toJson (p : Problem) : Except Json.Error Json := do
  return .object [("path", ← p.path.toJson), ("symbol", .string p.symbol),
    ("reason", p.reason.toJson)]

def Problem.ofJson? (j : Json) : Option Problem := do
  match ← j.fields? ["path", "symbol", "reason"] with
  | [path, symbol, reason] =>
    return ⟨← required Path.ofJson? path, ← required Json.string? symbol,
      ← required Reason.ofJson? reason⟩
  | _ => none

end HeaderIndex
