import Mathlib.Computability.Language

/-! The generic syntax of URIs, rule by rule, as languages: a reference with or without a scheme.
Future address formats and zones of an address are left out of the rule for addresses in square
brackets. -/
namespace PipelineCache.Uri.Grammar
open scoped Computability

def one (p : Char → Bool) : Language Char := {t | ∃ c, p c ∧ t = [c]}

def between (a b : Char) : Language Char := one fun c => a ≤ c && c ≤ b

def word (s : String) : Language Char := {s.toList}

def optional (l : Language Char) : Language Char := 1 + l

/-- At most `n` repetitions. -/
def upTo (n : Nat) (l : Language Char) : Language Char := optional l ^ n

/-! Characters -/

def alpha : Language Char := between 'a' 'z' + between 'A' 'Z'

def digit : Language Char := between '0' '9'

def hexdig : Language Char := digit + between 'a' 'f' + between 'A' 'F'

def pctEncoded : Language Char := word "%" * hexdig * hexdig

def unreserved : Language Char :=
  alpha + digit + word "-" + word "." + word "_" + word "~"

def subDelims : Language Char :=
  word "!" + word "$" + word "&" + word "'" + word "(" + word ")" + word "*" + word "+" +
    word "," + word ";" + word "="

def pchar : Language Char := unreserved + pctEncoded + subDelims + word ":" + word "@"

/-! Paths -/

def segment : Language Char := pchar∗

def segmentNz : Language Char := pchar * pchar∗

/-- A segment without a colon. -/
def segmentNzNc : Language Char :=
  (unreserved + pctEncoded + subDelims + word "@") *
    (unreserved + pctEncoded + subDelims + word "@")∗

def pathAbempty : Language Char := (word "/" * segment)∗

def pathAbsolute : Language Char := word "/" * optional (segmentNz * pathAbempty)

def pathNoscheme : Language Char := segmentNzNc * pathAbempty

def pathRootless : Language Char := segmentNz * pathAbempty

def pathEmpty : Language Char := 1

/-! Hosts -/

def decOctet : Language Char :=
  digit + between '1' '9' * digit + word "1" * digit ^ 2 + word "2" * between '0' '4' * digit +
    word "25" * between '0' '5'

def ipv4address : Language Char :=
  decOctet * word "." * decOctet * word "." * decOctet * word "." * decOctet

/-- One to four hexadecimal digits. -/
def h16 : Language Char := hexdig * upTo 3 hexdig

def ls32 : Language Char := h16 * word ":" * h16 + ipv4address

def ipv6address : Language Char :=
  (h16 * word ":") ^ 6 * ls32 +
  word "::" * (h16 * word ":") ^ 5 * ls32 +
  optional h16 * word "::" * (h16 * word ":") ^ 4 * ls32 +
  optional (upTo 1 (h16 * word ":") * h16) * word "::" * (h16 * word ":") ^ 3 * ls32 +
  optional (upTo 2 (h16 * word ":") * h16) * word "::" * (h16 * word ":") ^ 2 * ls32 +
  optional (upTo 3 (h16 * word ":") * h16) * word "::" * h16 * word ":" * ls32 +
  optional (upTo 4 (h16 * word ":") * h16) * word "::" * ls32 +
  optional (upTo 5 (h16 * word ":") * h16) * word "::" * h16 +
  optional (upTo 6 (h16 * word ":") * h16) * word "::"

def ipLiteral : Language Char := word "[" * ipv6address * word "]"

def regName : Language Char := (unreserved + pctEncoded + subDelims)∗

def host : Language Char := ipLiteral + ipv4address + regName

def port : Language Char := digit∗

def userinfo : Language Char := (unreserved + pctEncoded + subDelims + word ":")∗

def authority : Language Char :=
  optional (userinfo * word "@") * host * optional (word ":" * port)

/-! References -/

def query : Language Char := (pchar + word "/" + word "?")∗

def fragment : Language Char := (pchar + word "/" + word "?")∗

/-- What may follow a path. -/
def tail : Language Char := optional (word "?" * query) * optional (word "#" * fragment)

def scheme : Language Char := alpha * (alpha + digit + word "+" + word "-" + word ".")∗

def hierPart : Language Char :=
  word "//" * authority * pathAbempty + pathAbsolute + pathRootless + pathEmpty

def relativePart : Language Char :=
  word "//" * authority * pathAbempty + pathAbsolute + pathNoscheme + pathEmpty

def uri : Language Char := scheme * word ":" * hierPart * tail

def relativeRef : Language Char := relativePart * tail

def uriReference : Language Char := uri + relativeRef

end PipelineCache.Uri.Grammar
