import Mathlib

/-!
# Source lists of content security policies

A source list is parsed from the value of a directive, and says which URLs the directive allows.
A text is the list of its characters. The decoding of escape sequences and of base 64 is left open.
-/

namespace WebKit.CSP

abbrev Text := List Char

def isASCIISpace (c : Char) : Bool := c == ' ' || ('\x09' ≤ c && c ≤ '\x0d')

def equalIgnoringASCIICase (a b : Text) : Bool := a.map Char.toLower == b.map Char.toLower

structure URL where
  protocol : Text
  host : Text
  port : Option UInt16
  path : Text
deriving DecidableEq, Repr

namespace URL

variable (url : URL)

def protocolIs (protocol : Text) : Bool := equalIgnoringASCIICase url.protocol protocol

def protocolIsInHTTPFamily : Bool := url.protocolIs "http".toList || url.protocolIs "https".toList

end URL

/-- The scheme `w` of any length but two and three gets the port zero: the source returns `false`
for it. -/
def defaultPortForProtocol (scheme : Text) : Option UInt16 :=
  match scheme with
  | ['w', c] => if c = 's' then some 80 else none
  | ['w', c, d] => if c = 's' ∧ d = 's' then some 443 else none
  | 'w' :: _ => some 0
  | ['h', 't', 't', 'p'] => some 80
  | ['h', 't', 't', 'p', 's'] => some 443
  | ['g', 'o', 'p', 'h', 'e', 'r'] => some 70
  | ['f', 't', 'p'] => some 21
  | _ => none

def isDefaultPortForProtocol (port : UInt16) (protocol : Text) : Bool :=
  defaultPortForProtocol protocol == some port

/-- What the platform does. -/
structure Platform where
  decodeURLEscapeSequences : Text → Text
  base64Decode : Text → Option (List UInt8)
  base64URLDecode : Text → Option (List UInt8)
  /-- An optional without a value has cleared its first byte only. -/
  secondByteOfNullopt : UInt8

/-- Reads an optional, whether or not it has a value. -/
def Platform.value (platform : Platform) (port : Option UInt16) : UInt16 :=
  port.getD (platform.secondByteOfNullopt.toUInt16 <<< 8)

/-- The origin that the policy is for, and its setting. -/
structure ContentSecurityPolicy where
  selfSourceProtocol : Text
  selfHost : Text
  selfPort : Option UInt16
  allowContentSecurityPolicySourceStarToMatchAnyProtocol : Bool

def ContentSecurityPolicy.protocolMatchesSelf (policy : ContentSecurityPolicy) (url : URL) : Bool :=
  if equalIgnoringASCIICase policy.selfSourceProtocol "http".toList then url.protocolIsInHTTPFamily
  else equalIgnoringASCIICase url.protocol policy.selfSourceProtocol

/-! ### Sources -/

structure ContentSecurityPolicySource where
  scheme : Text := []
  host : Text := []
  port : Option UInt16 := none
  path : Text := []
  hostHasWildcard : Bool := false
  portHasWildcard : Bool := false
deriving DecidableEq, Repr

namespace ContentSecurityPolicySource

variable (platform : Platform) (policy : ContentSecurityPolicy)
  (source : ContentSecurityPolicySource) (url : URL)

def isSchemeOnly : Bool := source.host.isEmpty

def schemeMatches : Bool :=
  if source.scheme.isEmpty then policy.protocolMatchesSelf url
  else if equalIgnoringASCIICase source.scheme "http".toList then url.protocolIsInHTTPFamily
  else equalIgnoringASCIICase url.protocol source.scheme

def hostMatches : Bool :=
  equalIgnoringASCIICase url.host source.host ||
    source.hostHasWildcard &&
      ('.' :: source.host.map Char.toLower).isSuffixOf (url.host.map Char.toLower)

def pathMatches : Bool :=
  if source.path.isEmpty then true
  else
    let path := platform.decodeURLEscapeSequences url.path
    if ['/'].isSuffixOf source.path then source.path.isPrefixOf path else path == source.path

def portMatches : Bool :=
  if source.portHasWildcard then true
  else
    let port := url.port
    if port == source.port then true
    else if isDefaultPortForProtocol (platform.value source.port) "http".toList &&
        ((port.isNone && url.protocolIs "https".toList) ||
          isDefaultPortForProtocol (platform.value port) "https".toList) then true
    else if port.isNone then
      isDefaultPortForProtocol (platform.value source.port) url.protocol
    else if source.port.isNone then isDefaultPortForProtocol (platform.value port) url.protocol
    else false

def matchesURL (didReceiveRedirectResponse : Bool) : Bool :=
  if !source.schemeMatches policy url then false
  else if source.isSchemeOnly then true
  else
    source.hostMatches url && source.portMatches platform url &&
      (didReceiveRedirectResponse || source.pathMatches platform url)

end ContentSecurityPolicySource

/-- The source that `'self'` stands for. -/
def ContentSecurityPolicy.selfSource (policy : ContentSecurityPolicy) :
    ContentSecurityPolicySource where
  scheme := policy.selfSourceProtocol
  host := policy.selfHost
  port := policy.selfPort

def ContentSecurityPolicy.urlMatchesSelf (platform : Platform) (policy : ContentSecurityPolicy)
    (url : URL) : Bool := policy.selfSource.matchesURL platform policy url false

/-! ### Source lists -/

inductive HashAlgorithm
  | sha256
  | sha384
  | sha512
deriving DecidableEq, Repr

structure ContentSecurityPolicyHash where
  algorithm : HashAlgorithm
  value : List UInt8
deriving DecidableEq, Repr

/-- What is reported to the console. -/
inductive Report
  | directiveAsSourceExpression (source : Text)
  | invalidSourceExpression (source : Text)
  | invalidPathCharacter (path : Text) (character : Char)
deriving DecidableEq, Repr

/-- A source list. The algorithms used are those of its hashes. -/
structure ContentSecurityPolicySourceList where
  directiveName : Text
  list : List ContentSecurityPolicySource := []
  nonces : List Text := []
  hashes : List ContentSecurityPolicyHash := []
  allowSelf : Bool := false
  allowStar : Bool := false
  allowInline : Bool := false
  allowEval : Bool := false
  isNone : Bool := false
  reports : List Report := []
deriving DecidableEq, Repr

def isHostCharacter (c : Char) : Bool := c.isAlphanum || c == '-'

def isPathComponentCharacter (c : Char) : Bool := c != '?' && c != '#'

def isSchemeContinuationCharacter (c : Char) : Bool :=
  c.isAlphanum || c == '+' || c == '-' || c == '.'

namespace ContentSecurityPolicySourceList

variable (platform : Platform) (policy : ContentSecurityPolicy)
  (sourceList : ContentSecurityPolicySourceList)

end ContentSecurityPolicySourceList

namespace ContentSecurityPolicySourceList

variable (platform : Platform) (policy : ContentSecurityPolicy)
  (sourceList : ContentSecurityPolicySourceList)

def isProtocolAllowedByStar (url : URL) : Bool :=
  if policy.allowContentSecurityPolicySourceStarToMatchAnyProtocol then true
  else
    let isAllowed := url.protocolIsInHTTPFamily || url.protocolIs "ws".toList ||
      url.protocolIs "wss".toList || policy.protocolMatchesSelf url
    if equalIgnoringASCIICase sourceList.directiveName "img-src".toList then
      isAllowed || url.protocolIs "data".toList
    else if equalIgnoringASCIICase sourceList.directiveName "media-src".toList then
      isAllowed || url.protocolIs "data".toList || url.protocolIs "blob".toList
    else isAllowed

def matchesURL (url : URL) (didReceiveRedirectResponse : Bool) : Bool :=
  sourceList.allowStar && sourceList.isProtocolAllowedByStar policy url ||
    sourceList.allowSelf && policy.urlMatchesSelf platform url ||
    sourceList.list.any fun entry => entry.matchesURL platform policy url didReceiveRedirectResponse

end ContentSecurityPolicySourceList

end WebKit.CSP
