import LeaseLock.Text.Numeral
import LeaseLock.Text.Percent
import LeaseLock.Text.Separated

/-!
# URLs of key-value servers

Which texts name a key-value server.

## The model

A URL names a server by host and number, after a scheme for connections without encryption, or by the
path of a socket. The path of the former is the number of a database. A protocol may be chosen
among the options.
-/

namespace LeaseLock.Redis.Url

open Text

/-- The schemes for servers with a host. -/
def hostSchemes : List String := ["redis", "valkey"]

/-- The schemes for servers on a socket. -/
def socketSchemes : List String := ["redis+unix", "valkey+unix", "unix"]

/-- The text without control characters and blanks at its ends, tabulators and line breaks. -/
def cleaned (s : String) : List Char :=
  let isLow (c : Char) : Bool := c ≤ ' '
  (((s.toList.dropWhile isLow).reverse.dropWhile isLow).reverse).filter fun c =>
    !(c == '\t' || c == '\n' || c == '\r')

/-- A character of a host that is a name. -/
def isHostChar (c : Char) : Bool := '\x20' < c && c ≠ '\x7f' && !"#/:<>?@[\\]^|".toList.contains c

/-- The host is a name, or an address in brackets. -/
def isHost (cs : List Char) : Bool :=
  match cs with
  | '[' :: rest =>
    rest.getLast? == some ']' && 3 < rest.length && rest.contains ':' &&
      rest.dropLast.all fun c => (Percent.digit? c).isSome || c == ':' || c == '.'
  | cs => cs ≠ [] && cs.all isHostChar

/-- The text is empty or the number of a service on a host. -/
def isServiceNumber (cs : List Char) : Bool := Numeral.isRun cs && Numeral.value cs ≤ 65535

/-- The characters after the last mark. -/
def afterLast (mark : Char) (cs : List Char) : List Char :=
  (cs.reverse.takeWhile (· ≠ mark)).reverse

/-- The text is a host with or without the number of a service. -/
def isServer (cs : List Char) : Bool :=
  let number := afterLast ':' cs
  if cs.contains ':' && !number.contains ']' then
    isHost (cs.take (cs.length - number.length - 1)) && isServiceNumber number
  else isHost cs

/-- The text is a user with or without a password. -/
def isUser (cs : List Char) : Bool :=
  let (user, password) := cut ':' cs
  (Percent.decode? user).isSome && (Percent.decode? (password.getD [])).isSome

/-- The text is that of a server, perhaps after a user. -/
def isAuthority (cs : List Char) : Bool :=
  let server := afterLast '@' cs
  isServer server &&
    (server.length = cs.length || isUser (cs.take (cs.length - server.length - 1)))

/-- The text without slashes at its ends. -/
def trimSlashes (cs : List Char) : List Char :=
  ((cs.dropWhile (· == '/')).reverse.dropWhile (· == '/')).reverse

/-- The path is empty or the number of a database. -/
def isDatabase (cs : List Char) : Bool :=
  let path := trimSlashes cs
  path = [] || (Numeral.signed? path).isSome

/-- The names and values among the options. -/
def options (cs : List Char) : List (List Char × List Char) :=
  (split '&' cs).map fun part => let (n, v) := cut '=' part; (n, v.getD [])

/-- The last value of an option. -/
def option? (name : String) (cs : List Char) : Option String :=
  (((options cs).filter (·.1 = name.toList)).getLast?).map (String.ofList ·.2)

/-- The protocol among the options is known. -/
def hasProtocol (cs : List Char) : Bool :=
  (option? "protocol" cs).all (["2", "resp2", "3", "resp3"].contains ·)

/-- The database among the options is a number. -/
def hasDatabase (cs : List Char) : Bool :=
  (option? "db" cs).all fun s => (Numeral.signed? s.toList).isSome

/-- The text names a server. -/
def isValid (s : String) : Bool :=
  let (scheme, rest) := cut ':' (cut '#' (cleaned s)).1
  let (location, query) := cut '?' (rest.getD [])
  let scheme := String.ofList (scheme.map Char.toLower)
  let query := query.getD []
  if socketSchemes.contains scheme then
    location.head? == some '/' && hasDatabase query && hasProtocol query
  else if hostSchemes.contains scheme then
    match location with
    | '/' :: '/' :: server =>
      isAuthority (server.takeWhile (· ≠ '/')) && isDatabase (server.dropWhile (· ≠ '/')) &&
        hasProtocol query
    | _ => false
  else false

end LeaseLock.Redis.Url
