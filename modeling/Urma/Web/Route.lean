import Urma.Core.TextParts
import Urma.Web.Package

/-!
# The routes of a site

`urma_cli::gateway_route`: which declared resource a request target asks for. A path that is not
declared is tried once more as a directory.
-/

namespace Urma.Web

/-- `Route`. -/
inductive Route where
  | serve (path : Text)
  | redirect (target : Text)
  | undeclared
  deriving DecidableEq

/-- `Route::RESERVED`. -/
def Route.reserved : Bytes := ascii "/.well-known/urma/"

/-- A byte that ends the path of a target. -/
def endsPath (byte : UInt8) : Bool :=
  byte == 63 || byte == 35

theorem ascii_of_endsPath {byte : UInt8} (h : endsPath byte = true) : byte < 128 := by
  rw [endsPath, Bool.or_eq_true, beq_iff_eq, beq_iff_eq] at h
  rcases h with rfl | rfl
  · decide
  · decide

/-- `split_target`. -/
def splitTarget (target : Text) : Text × Text :=
  target.cutAt endsPath fun _ => ascii_of_endsPath

/-- `Lookup`. -/
inductive Lookup where
  | declared (path : Text)
  | absent
  deriving DecidableEq

/-- `lookup`. -/
def lookup (package : Package) (path : Text) : Lookup :=
  if Route.reserved.isPrefixOf path.bytes then .absent
  else
    match package.resolve path with
    | .file file => .declared file.path
    | .pinned pin => .declared pin.path
    | .undeclared => .absent

/-- `"/"`. -/
def slash : Text := Text.ofAscii [47] (by decide +kernel)

/-- `route`. -/
def route (package : Package) (target : Text) : Route :=
  let (path, query) := splitTarget target
  match lookup package path with
  | .declared declared => .serve declared
  | .absent =>
      if path.bytes.isEmpty || path.bytes.getLast? == some 47 then .undeclared
      else
        let directory := path.append slash
        match lookup package directory with
        | .declared _ => .redirect (directory.append query)
        | .absent => .undeclared

end Urma.Web
