import Mathlib.Data.List.TakeWhile
import Signpost.Cli.Run
import Signpost.Proofs.Json
import Signpost.Proofs.Percent
import Signpost.Proofs.Result

/-! # Requests in lines

A command without a path answers the lines of the input, each as it would answer the request alone.
It stops at the first line that is not a text, with what it wrote before.
-/
namespace Signpost.Cli
open Signpost.Text (JsonValue)
open Signpost.Text.Percent (toList_eq_data toUTF8_toList fromUTF8?_bytes)
open Signpost.Unicode (trim isWhiteSpace)

variable {r : Router} {o : RequestOptions}

section Answers
variable {file : Option String} {settings : Settings} {file? : String → Option ByteArray}

/-- The value answers a trimmed line if it is what is written, in one line here and indented there,
for the request that the line stands for: a method and a path with white space between them, or a
path alone, which is requested with the default method. -/
structure Answers (written : (path method : List Char) → Written) (o : RequestOptions)
    (cs : List Char) (v : JsonValue) : Prop where
  oneLine : '\n' ∉ v.compact.toList
  ofMethod : ∀ method w path, cs = method ++ w :: path →
    (∀ c ∈ method, isWhiteSpace c = false) → isWhiteSpace w = true →
    written (trim path) method = { out := v.pretty 0 ++ "\n" }
  ofPath : (∀ c ∈ cs, isWhiteSpace c = false) →
    written cs o.method.toList = { out := v.pretty 0 ++ "\n" }

end Answers

end Signpost.Cli
