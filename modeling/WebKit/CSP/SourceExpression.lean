import WebKit.CSP.ContentSecurityPolicySourceList

/-!
# Source expressions

The grammar of source expressions, and the parser's side of it: a source is parsed just if it is an
expression, where the name of a host may also end in a dot or be missing behind `*.`.
-/

namespace WebKit.CSP

open List
open Option hiding all_eq_true

/-! ### The grammar -/

/-- A host: `*`, a name, or `*.` and a name. -/
inductive HostPattern
  | any
  | name (host : Text)
  | subdomains (host : Text)
deriving DecidableEq, Repr

/-- A port: `*` or a number. -/
inductive PortPattern
  | any
  | number (port : UInt16)
deriving DecidableEq, Repr

/-- An expression `[scheme://]host[:port][/path]`. -/
structure HostExpression where
  scheme : Option Text
  host : HostPattern
  port : Option PortPattern
  path : Option Text
deriving DecidableEq, Repr

/-- An expression `*`, `'self'`, `scheme:` or `[scheme://]host[:port][/path]`. -/
inductive Expression
  | star
  | self
  | scheme (scheme : Text)
  | host (expression : HostExpression)
deriving DecidableEq, Repr

/-- A letter, and letters, digits, `+`, `-` and `.`. -/
def IsScheme (scheme : Text) : Prop :=
  ∃ c cs, scheme = c :: cs ∧ c.isAlpha = true ∧ ∀ d ∈ cs, isSchemeContinuationCharacter d = true

/-- Labels of letters, digits and `-` that are separated by dots, as the parser takes them: the last
one may be empty. -/
def IsDotted (host : Text) : Prop :=
  (∀ c ∈ host, isHostCharacter c = true ∨ c = '.') ∧ host.head? ≠ some '.' ∧ ¬ ['.', '.'] <:+: host

/-- One or more labels of letters, digits and `-`, none of which is empty, separated by dots. -/
def IsLabels (host : Text) : Prop := IsDotted host ∧ host ≠ [] ∧ host.getLast? ≠ some '.'

namespace HostPattern

def text : HostPattern → Text
  | any => ['*']
  | name host => host
  | subdomains host => '*' :: '.' :: host

/-- What the grammar allows. -/
def IsValid : HostPattern → Prop
  | any => True
  | name host | subdomains host => IsLabels host

/-- What the parser takes. -/
def IsAccepted : HostPattern → Prop
  | any => True
  | name host => IsDotted host ∧ host ≠ []
  | subdomains host => IsDotted host

/-- The name, and whether there is a wildcard. -/
def parsed : HostPattern → Text × Bool
  | any => ([], true)
  | name host => (host, false)
  | subdomains host => (host, true)

end HostPattern

/-- The number that is written in decimal digits. -/
def decimal (digits : Text) : ℕ :=
  digits.foldl (fun value c => 10 * value + (c.toNat - '0'.toNat)) 0

namespace PortPattern

/-- The text that is behind the colon. -/
def IsText : PortPattern → Text → Prop
  | any, text => text = ['*']
  | number port, text => text ≠ [] ∧ (∀ c ∈ text, c.isDigit = true) ∧ decimal text = port.toNat

def parsed : PortPattern → Option UInt16 × Bool
  | any => (none, true)
  | number port => (some port, false)

end PortPattern

/-- The port with its colon. -/
def IsPortText : Option PortPattern → Text → Prop
  | none, text => text = []
  | some pattern, text => ∃ digits, text = ':' :: digits ∧ pattern.IsText digits

def IsPath (path : Text) : Prop := path.head? = some '/'

namespace HostExpression

def schemeText (e : HostExpression) : Text := e.scheme.elim [] (· ++ "://".toList)

def pathText (e : HostExpression) : Text := e.path.getD []

structure IsAccepted (e : HostExpression) : Prop where
  scheme : ∀ scheme ∈ e.scheme, IsScheme scheme
  host : e.host.IsAccepted
  path : ∀ path ∈ e.path, IsPath path

end HostExpression

/-- The source is the expression. -/
def Denotes (source : Text) : Expression → Prop
  | .star => source = ['*']
  | .self => equalIgnoringASCIICase source "'self'".toList = true
  | .scheme scheme => IsScheme scheme ∧ source = scheme ++ [':']
  | .host e => source ≠ ['*'] ∧ e.IsAccepted ∧ ∃ portText, IsPortText e.port portText ∧
      source = e.schemeText ++ (e.host.text ++ (portText ++ e.pathText))

/-! ### Parsing the parts -/

variable {text : Text}

/-- The source that the parts stand for. -/
def sourceOf (platform : Platform) (scheme : Text) (host : HostPattern) (port : Option PortPattern)
    (path : Option Text) : ContentSecurityPolicySource where
  scheme := scheme
  host := host.parsed.1
  port := (port.elim (none, false) PortPattern.parsed).1
  path := path.elim [] fun path =>
    platform.decodeURLEscapeSequences (path.takeWhile isPathComponentCharacter)
  hostHasWildcard := host.parsed.2
  portHasWildcard := (port.elim (none, false) PortPattern.parsed).2

variable {pat : HostPattern}

variable {port : Option PortPattern} {path : Option Text} {portText : Text}

namespace ContentSecurityPolicySourceList

variable {pf : Platform} {list list' : ContentSecurityPolicySourceList}
  {source : ContentSecurityPolicySource}

/-- The lists differ in what they report only. -/
def SameSources (sourceList sourceList' : ContentSecurityPolicySourceList) : Prop :=
  ∃ reports, sourceList' = { sourceList with reports }

lemma SameSources.refl (list : ContentSecurityPolicySourceList) :
    SameSources list list := ⟨list.reports, rfl⟩

end ContentSecurityPolicySourceList

/-! ### Sources and expressions -/

variable {c : Char}

variable {scheme : Text}

/-- The characters of a scheme. -/
lemma IsScheme.mem (h : IsScheme scheme) (hc : c ∈ scheme) :
    isSchemeContinuationCharacter c = true := by
  obtain ⟨d, ds, rfl, hd, hds⟩ := h
  rcases mem_cons.1 hc with rfl | hc
  · simp [isSchemeContinuationCharacter, Char.isAlphanum, hd]
  · exact hds c hc

namespace ContentSecurityPolicySourceList

variable {pf : Platform} {list list' : ContentSecurityPolicySourceList}
  {source : Text} {parsed : ContentSecurityPolicySource}

end ContentSecurityPolicySourceList

end WebKit.CSP
