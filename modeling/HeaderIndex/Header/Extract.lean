import HeaderIndex.Header.Braced
import HeaderIndex.Header.Constant
import HeaderIndex.Header.Function
import HeaderIndex.Header.Marked
import HeaderIndex.Header.Scrub
import HeaderIndex.Header.Typedef
import HeaderIndex.Symbol

/-! The symbols of a header. Each kind has its own search; a header is scrubbed of
its comments first, and the kinds are reported one after another. -/

namespace HeaderIndex.Header

/-- The names of one kind in text that is already scrubbed. -/
def find : Kind → List Char → List String
  | .constant => Constant.find
  | .define => Define.find
  | .enum => Enumeration.find
  | .struct => Struct.find
  | .typedef => Typedef.find
  | .function => Function.find
  | .interface => Interface.find
  | .protocol => Protocol.find

def scrubFor : Kind → Scrub := fun _ => .comments

def extract (kind : Kind) (text : String) : List String :=
  find kind ((scrubFor kind).apply text.toList)

/-- The names of every kind, in report order. Repeats across kinds stay. -/
def extractAll (text : String) : List String := Kind.all.flatMap (extract · text)

def symbols (text : String) : List Symbol :=
  Kind.all.flatMap fun kind => (extract kind text).map (⟨·, kind⟩)

end HeaderIndex.Header
