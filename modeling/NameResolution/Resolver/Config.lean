/-!
# Configuration of the resolver

Which names are builtin, whether the walk of a unit stops at its first failure, and how many
failures are recorded on one unit. `Config.Error` lists what can be wrong with a configuration. A
builtin has to be a plain name, without any character of the Unicode property `White_Space`.
-/

namespace NameResolution

/-- The ranges of code points that are white space, in increasing order. -/
def blankRanges : List (Nat × Nat) :=
  [(0x09, 0x0d), (0x20, 0x20), (0x85, 0x85), (0xa0, 0xa0), (0x1680, 0x1680), (0x2000, 0x200a),
   (0x2028, 0x2029), (0x202f, 0x202f), (0x205f, 0x205f), (0x3000, 0x3000)]

/-- Whether a character is white space. -/
def isBlank (c : Char) : Bool :=
  blankRanges.any fun (lo, hi) => lo ≤ c.toNat && c.toNat ≤ hi

/-- The configuration of the resolver. -/
structure Config where
  /-- Names that are bound when nothing else declares them. -/
  builtins : List String := []
  /-- Stop the walk of a unit after its first failure. -/
  stopAtFirstUnresolved : Bool := false
  /-- Record at most this many failures on one unit. -/
  maxDiagnosticsPerUnit : Option UInt64 := none
deriving DecidableEq, Inhabited

namespace Config

/-- The path in the declaration of builtin names. -/
def builtinPath : String := "<builtin>"

/-- Adds builtin names behind the others. -/
def withBuiltins (c : Config) (names : List String) : Config :=
  { c with builtins := c.builtins ++ names }

/-- Sets whether the walk of a unit stops at its first failure. -/
def withStop (c : Config) (stop : Bool) : Config := { c with stopAtFirstUnresolved := stop }

/-- Sets how many failures are recorded on one unit. -/
def withCap (c : Config) (cap : UInt64) : Config := { c with maxDiagnosticsPerUnit := some cap }

/-- What can be wrong with a configuration. -/
inductive Error where
  /-- The file cannot be read. -/
  | read (path reason : String)
  /-- The text is not a TOML document with the known settings. -/
  | parse
  /-- A builtin is not a plain name. -/
  | invalidBuiltin (name : String)
deriving DecidableEq

/-- The message of an error. -/
def Error.message : Error → String
  | read path reason => s!"failed to read resolver config `{path}`: {reason}"
  | parse => "invalid resolver config"
  | invalidBuiltin name =>
    s!"invalid resolver config: builtin name `{name}` is empty or contains whitespace"

/-- The context in which a file is loaded. -/
def loadingContext (path : String) : String := s!"loading resolver config from {path}"

/-- A plain name is not empty and has no white space in it. -/
def isPlainName (name : String) : Bool := !name.isEmpty && !name.toList.any isBlank

/-- Refuses a configuration with a builtin that is not a plain name. -/
def validate (c : Config) : Except Error Config :=
  match c.builtins.find? fun name => !isPlainName name with
  | some name => .error (.invalidBuiltin name)
  | none => .ok c

end Config

end NameResolution
