import AgosMemory.Text

/-!
# Bind addresses

The host part of a bind string and the IP addresses it may spell, read as the standard library reads
them: a reader returns the value and the rest of the input, or nothing, and consumes nothing then.
-/

namespace AgosMemory.Server

/-- `str::split_once` -/
def splitOnce (sep : Char) (s : String) : Option (String × String) :=
  match s.toList.dropWhile (· ≠ sep) with
  | [] => none
  | _ :: rest => some (String.ofList (s.toList.takeWhile (· ≠ sep)), String.ofList rest)

/-- `str::strip_prefix` of a character -/
def stripPrefix (c : Char) (s : String) : Option String :=
  match s.toList with
  | [] => none
  | d :: rest => if d = c then some (String.ofList rest) else none

/-- Extract the host part of a bind string: `host`, `host:port`, or `[v6]:port`. -/
def hostOf (bind : String) : String :=
  match stripPrefix '[' bind with
  | some rest =>
    -- an unterminated bracket takes what is there
    match splitOnce ']' rest with
    | some (host, _) => host
    | none => rest
  | none =>
    match (splitOnce ':' bind).filter fun (host, port) =>
      !host.toList.contains ':' && port ≠ "" && port.toList.all Char.isDigit with
    | some (host, _) => host
    | none => bind

/-! ## IP addresses -/

inductive IpAddr where
  | v4 (octets : List Nat)
  | v6 (groups : List Nat)
  deriving DecidableEq, Repr

def IpAddr.isLoopback : IpAddr → Bool
  | v4 octets => octets.head? = some 127
  | v6 groups => groups = [0, 0, 0, 0, 0, 0, 0, 1]

abbrev Reader (α : Type) := List Char → Option (α × List Char)

/-- `char::to_digit` -/
def toDigit (radix : Nat) (c : Char) : Option Nat :=
  let digit := if c.isDigit then some (c.toNat - '0'.toNat)
    else if 'a' ≤ c ∧ c ≤ 'z' then some (c.toNat - 'a'.toNat + 10)
    else if 'A' ≤ c ∧ c ≤ 'Z' then some (c.toNat - 'A'.toNat + 10)
    else none
  digit.filter (· < radix)

def readGivenChar (c : Char) : Reader Unit
  | [] => none
  | d :: rest => if d = c then some ((), rest) else none

/-- All the digits that follow, at most `maxDigits`, of a number up to `limit`. -/
def readNumber (radix maxDigits limit : Nat) (allowZeroPrefix : Bool) : Reader Nat := fun input =>
  let digits := (input.takeWhile fun c => (toDigit radix c).isSome).filterMap (toDigit radix)
  let value := digits.foldl (fun n d => n * radix + d) 0
  if digits.isEmpty || maxDigits < digits.length then none
  else if !allowZeroPrefix && digits.head? = some 0 && 1 < digits.length then none
  else if limit < value then none
  else some (value, input.drop digits.length)

/-- A part of an address, after a separator unless it is the first one. -/
def readSeparator {α : Type} (sep : Char) (index : Nat) (inner : Reader α) : Reader α := fun input =>
  if index = 0 then inner input else (readGivenChar sep input).bind fun x => inner x.2

/-- The octets from `index` on. -/
def readOctets : Nat → Nat → Reader (List Nat)
  | 0, _, input => some ([], input)
  | n + 1, index, input =>
    (readSeparator '.' index (readNumber 10 3 255 false) input).bind fun (octet, rest) =>
      (readOctets n (index + 1) rest).map fun (octets, rest) => (octet :: octets, rest)

def readIpv4Addr : Reader (List Nat) := readOctets 4 0

/-- The groups from `index` on while there are any, `left` at most, with an embedded IPv4 address as
the last two: the groups, whether there was one, and the rest. -/
def readGroups : Nat → Nat → List Char → List Nat × Bool × List Char
  | 0, _, input => ([], false, input)
  | left + 1, index, input =>
    match (if 0 < left then readSeparator ':' index readIpv4Addr input else none) with
    | some ([a, b, c, d], rest) => ([a * 256 + b, c * 256 + d], true, rest)
    | _ =>
      match readSeparator ':' index (readNumber 16 4 65535 true) input with
      | none => ([], false, input)
      | some (group, rest) =>
        let (groups, ipv4, rest) := readGroups left (index + 1) rest
        (group :: groups, ipv4, rest)

def readIpv6Addr : Reader (List Nat) := fun input =>
  let (head, headIpv4, rest) := readGroups 8 0 input
  if head.length = 8 then some (head, rest)
  else if headIpv4 then none
  else
    -- `::` stands for at least one group of zeros
    (readGivenChar ':' rest).bind fun (_, rest) =>
      (readGivenChar ':' rest).map fun (_, rest) =>
        let (tail, _, rest) := readGroups (7 - head.length) 0 rest
        (head ++ List.replicate (8 - head.length - tail.length) 0 ++ tail, rest)

/-- `str::parse::<IpAddr>`, which must use up the input. -/
def parseIpAddr (s : String) : Option IpAddr :=
  match readIpv4Addr s.toList with
  | some (octets, rest) => if rest.isEmpty then some (.v4 octets) else none
  | none =>
    match readIpv6Addr s.toList with
    | some (groups, rest) => if rest.isEmpty then some (.v6 groups) else none
    | none => none

/-- `str::eq_ignore_ascii_case` -/
def eqIgnoreAsciiCase (a b : String) : Bool := a.toList.map Char.toLower = b.toList.map Char.toLower

/-- Check whether `bind` (host, `host:port`, or `[v6]:port`) is loopback-only. -/
def isLoopback (bind : String) : Bool :=
  let host := hostOf bind
  match parseIpAddr host with
  | some ip => ip.isLoopback
  | none => eqIgnoreAsciiCase host "localhost"

example : ["127.0.0.1", "127.9.9.9:8710", "LOCALHOST:8080", "::1", "[::1]", "[::1]:8710",
    "0:0::0.0.0.1"].all isLoopback = true := by decide +kernel

example : ["", "0.0.0.0:8080", "::", "[::]", "::1:8080", "example.com:8080", "192.168.1.1",
    "127.0.0.01", "::ffff:127.0.0.1"].any isLoopback = false := by decide +kernel

end AgosMemory.Server
