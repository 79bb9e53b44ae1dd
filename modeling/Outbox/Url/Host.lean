import Outbox.Url.Address
import Outbox.Url.Domain

/-! # Hosts

A host is a name or a numeric address. The schemes of the web look at the name: it is brought to
ASCII, and a name that ends in a number has to be an address. Other schemes keep it as it is.
-/

namespace Outbox.Url

/-- Why a text is no address of anything. -/
inductive Error where
  | emptyHost
  | invalidName
  | invalidPort
  | invalidIpv4
  | invalidIpv6
  | invalidCharacter
  | missingScheme
  /-- Nothing can be below the address, for its path has no segments. -/
  | rootless
  deriving Repr, DecidableEq

def Error.message : Error → String
  | emptyHost => "empty host"
  | invalidName => "invalid international domain name"
  | invalidPort => "invalid port number"
  | invalidIpv4 => "invalid IPv4 address"
  | invalidIpv6 => "invalid IPv6 address"
  | invalidCharacter => "invalid domain character"
  | missingScheme => "relative URL without a base"
  | rootless => "relative URL with a cannot-be-a-base base"

/-- A host. -/
inductive Host where
  /-- A name, which is empty for an address on this machine. -/
  | named (name : String)
  | ipv4 (address : Ipv4)
  | ipv6 (address : Ipv6)
  deriving DecidableEq

namespace Host

def text : Host → String
  | named name => name
  | ipv4 address => address.text
  | ipv6 address => "[" ++ address.text ++ "]"

/-- The host between brackets, when the first one has been read. -/
def ofBrackets (cs : List Char) : Except Error Host :=
  if cs.getLast? = some ']' then
    match Ipv6.parse? cs.dropLast with
    | some a => .ok (.ipv6 a)
    | none => .error .invalidIpv6
  else .error .invalidIpv6

def ofWeb (cs : List Char) : Except Error Host :=
  match cs with
  | '[' :: rest => ofBrackets rest
  | cs =>
    match Domain.ofEscaped? cs with
    | none => .error .invalidName
    | some [] => .error .emptyHost
    | some name =>
      if Ipv4.isMeant name then
        match Ipv4.parse? name with
        | some a => .ok (.ipv4 a)
        | none => .error .invalidIpv4
      else .ok (.named (String.ofList name))

/-- The character separates parts of an address and cannot stand in a host. -/
def isSeparator (c : Char) : Bool := "\x00\t\n\r #/:<>?@[\\]^|".toList.contains c

def ofOther (cs : List Char) : Except Error Host :=
  match cs with
  | '[' :: rest => ofBrackets rest
  | cs =>
    if cs.any isSeparator then .error .invalidCharacter
    else .ok (.named (String.ofList (escape isControl cs)))

end Host

end Outbox.Url
