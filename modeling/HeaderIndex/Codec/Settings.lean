import HeaderIndex.Codec.Report
import HeaderIndex.Settings

/-! Settings as JSON. Every field has its standard value where it is missing. -/

namespace HeaderIndex

open Json (optional)

def ScanSettings.toJson (s : ScanSettings) : Json :=
  .object [("extensions", .ofStrings s.extensions), ("workers", .nat s.workers),
    ("respect_ignore", .bool s.respectIgnore)]

def ScanSettings.ofJson? (j : Json) : Option ScanSettings := do
  match ← j.fields? ["extensions", "workers", "respect_ignore"] with
  | [extensions, workers, respectIgnore] =>
    return ⟨← optional standard.extensions Json.strings? extensions,
      ← optional standard.workers Json.word? workers,
      ← optional standard.respectIgnore Json.bool? respectIgnore⟩
  | _ => none

/-- Check rules of which any part may be left to the standard ones. -/
def CheckRules.ofPartialJson? (j : Json) : Option CheckRules := do
  match ← j.fields? ["min_length", "suspicious"] with
  | [minLength, suspicious] =>
    return ⟨← optional standard.minLength Json.word? minLength,
      ← optional standard.suspicious Json.strings? suspicious⟩
  | _ => none

def Settings.toJson (s : Settings) : Json :=
  .object [("scan", s.scan.toJson), ("check", s.check.toJson)]

def Settings.ofJson? (j : Json) : Option Settings := do
  match ← j.fields? ["scan", "check"] with
  | [scan, check] =>
    return ⟨← optional standard.scan ScanSettings.ofJson? scan,
      ← optional standard.check CheckRules.ofPartialJson? check⟩
  | _ => none

end HeaderIndex
