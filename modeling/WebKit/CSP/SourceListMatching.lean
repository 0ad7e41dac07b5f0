import WebKit.CSP.SourceExpression

/-!
# What source lists match

A source list should match a URL just if one of its expressions does. It does, but for expressions
that are misread. If the host has no name, those with a scheme are taken for the scheme alone,
whatever their port and path, and those without are dropped. A name that ends in a dot is taken for
a name, and `*.` and a name for that name as well.
-/

namespace WebKit.CSP

open List ContentSecurityPolicySource ContentSecurityPolicy
open Option hiding or_assoc

/-! ### What expressions say -/

/-- The scheme `http` stands for `https` as well. -/
def SchemeMatches (scheme : Text) (url : URL) : Prop :=
  (if equalIgnoringASCIICase scheme "http".toList then url.protocolIsInHTTPFamily
    else equalIgnoringASCIICase url.protocol scheme) = true

/-- No port stands for the default port. -/
def IsDefaultPort (port : Option UInt16) (url : URL) : Prop :=
  port = none ∨ port = defaultPortForProtocol url.protocol

/-- The ports are equal, both are the default port, or port 80 is upgraded to port 443. -/
def PortMatches (port : Option UInt16) (url : URL) : Prop :=
  url.port = port ∨ (IsDefaultPort url.port url ∧ IsDefaultPort port url) ∨
    port = some 80 ∧ (url.port = some 443 ∨ url.port = none ∧ url.protocolIs "https".toList = true)

/-- The host is `host`, or it ends in `.host` for a host with a wildcard. -/
def HostPattern.Matches : HostPattern → URL → Prop
  | any, _ => True
  | name host, url => equalIgnoringASCIICase url.host host = true
  | subdomains host, url => '.' :: host.map Char.toLower <:+ url.host.map Char.toLower

def PortPattern.Matches : PortPattern → URL → Prop
  | any, _ => True
  | number port, url => PortMatches (some port) url

/-- The decoded path of the URL is the decoded path, or starts with it if it ends in a slash. -/
def PathMatches (platform : Platform) (path : Text) (url : URL) : Prop :=
  let path := platform.decodeURLEscapeSequences (path.takeWhile isPathComponentCharacter)
  path = [] ∨ (['/'] <:+ path ∧ path <+: platform.decodeURLEscapeSequences url.path) ∨
    (¬ ['/'] <:+ path ∧ platform.decodeURLEscapeSequences url.path = path)

section

variable (platform : Platform) (policy : ContentSecurityPolicy) (directiveName : Text) (url : URL)
  (didReceiveRedirectResponse : Bool)

/-- All parts of the expression match. Without a scheme, the scheme is that of the origin. -/
structure HostExpression.Matches (e : HostExpression) (hostMatches : Prop) : Prop where
  scheme : SchemeMatches (e.scheme.getD policy.selfSourceProtocol) url
  host : hostMatches
  port : e.port.elim (PortMatches none url) (·.Matches url)
  path : didReceiveRedirectResponse = true ∨ ∀ path ∈ e.path, PathMatches platform path url

/-- What the expression matches. -/
def Expression.Matches : Expression → Prop
  | .star =>
    ({ directiveName } : ContentSecurityPolicySourceList).isProtocolAllowedByStar policy url = true
  | .self => SchemeMatches policy.selfSourceProtocol url ∧
      equalIgnoringASCIICase url.host policy.selfHost = true ∧ PortMatches policy.selfPort url
  | .scheme s => SchemeMatches s url
  | .host e => e.Matches platform policy url didReceiveRedirectResponse (e.host.Matches url)

end

/-- The grammar allows the expression. -/
def Expression.IsValid : Expression → Prop
  | .host e => e.host.IsValid
  | _ => True

/-- The sources of a text are separated by spaces. -/
def sources (text : Text) : List Text := (text.splitOnP isASCIISpace).filter (!·.isEmpty)

/-- The expression is in the list. -/
def Contains (text : Text) (e : Expression) : Prop := ∃ source ∈ sources text, Denotes source e

/-! ### Ports -/

section

variable {platform : Platform} {policy : ContentSecurityPolicy}
  {source : ContentSecurityPolicySource} {url : URL}

variable {port : Option UInt16}

end

/-! ### What sources match -/

section

variable (platform : Platform) (policy : ContentSecurityPolicy) (directiveName : Text) (url : URL)
  (didReceiveRedirectResponse : Bool)

variable {policy url}

end

section

variable {platform : Platform} {policy : ContentSecurityPolicy} {directiveName : Text} {url : URL}
  {redirected : Bool}

/-- The source that the host expression stands for. -/
def HostExpression.source (platform : Platform) (e : HostExpression) :
    ContentSecurityPolicySource := sourceOf platform (e.scheme.getD []) e.host e.port e.path

variable {e : HostExpression}

end

/-! ### What lists match -/

namespace ContentSecurityPolicySourceList

variable {platform : Platform} {policy : ContentSecurityPolicy} {directiveName : Text} {url : URL}
  {redirected : Bool} {list list' : ContentSecurityPolicySourceList}
  {source : Text} {e : Expression}

/-- The lists match the same URLs. -/
structure Agrees (sourceList sourceList' : ContentSecurityPolicySourceList) : Prop where
  directiveName : sourceList'.directiveName = sourceList.directiveName
  allowStar : sourceList'.allowStar = sourceList.allowStar
  allowSelf : sourceList'.allowSelf = sourceList.allowSelf
  list : sourceList'.list = sourceList.list

lemma Agrees.refl (list : ContentSecurityPolicySourceList) : Agrees list list :=
  ⟨rfl, rfl, rfl, rfl⟩

variable {text : Text}

section

variable (h : equalIgnoringASCIICase source "'self'".toList = true)

include h

end

section

variable {cs : Text} {c : Char} (h : text.dropWhile isASCIISpace = c :: cs)

include h

end

end ContentSecurityPolicySourceList

end WebKit.CSP
