import Symbios.Base.References
import Symbios.Model.Data

/-!
# Environment variables in the configuration

`replaceEnvVariable` of `configuration_manager.h`. Of `std::regex` it uses one search and one replacement of all matches
(`References`). What `getenv` returns is an argument, a null pointer being `none`; so is what the implementation does
with a group of a format string that the expression does not have.
-/

namespace Symbios

open References

def undefinedEnvVariable : ErrorCode := ⟨2011, "The environment variable is not defined %s"⟩

namespace ConfigurationManager

/-- The set of names: of every group of the match, the whole and the first, what is between `${` and `}`. -/
def variableSet (tempVariable : List UInt8) : List (List UInt8) :=
  match search tempVariable with
  | none => []
  | some (_, name, _) =>
    ([reference name, reference name].map fun extracted => (extracted.drop 2).take (extracted.length - 3)).dedup

/-- `replaceEnvVariable`; an `ErrorException` is its code and its argument. -/
def replaceEnvVariable (absent : List UInt8 → List UInt8 → List UInt8) (getenv : List UInt8 → Option (List UInt8))
    (tempVariable : List UInt8) : Except (ErrorCode × List UInt8) (List UInt8) :=
  (variableSet tempVariable).foldlM (fun tempVariable name =>
    match getenv name with
    | none => .error (undefinedEnvVariable, name)
    | some unrolled =>
      .ok (replaceAll (fun found before rest => format absent (reference found) before rest unrolled) tempVariable))
    tempVariable

end ConfigurationManager

end Symbios
