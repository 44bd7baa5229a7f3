import Broom.Engine.Run
import Mathlib.Data.List.DropRight

/-!
# The client's address

The sign-in limiter counts by the address of the direct peer, or behind a proxy in a
private network by the last entry of the forwarded-for list. The handler reads the
first header line only, so the entry it takes is the proxy's own as long as the first
line ends like the whole list.
-/

namespace Broom.Api

open Broom.Core Broom.Engine

/-! ## Addresses -/

/-- An address as eight groups of 16 bits; an IPv4 address is mapped into IPv6. -/
structure IP where
  groups : List Nat
  length_eq : groups.length = 8

/-- A number of an IPv4 address: at most 255, without leading zeros. -/
def parseByte (digits : List Char) : Option Nat :=
  let value := digits.foldl (fun n c => 10 * n + (c.toNat - 48)) 0
  if digits ≠ [] ∧ digits.all Char.isDigit ∧ (digits.length = 1 ∨ digits.head? ≠ some '0') ∧
      digits.length ≤ 3 ∧ value ≤ 255 then
    some value
  else none

/-- The two groups of an IPv4 address. -/
def parseIPv4 (s : List Char) : Option (List Nat) :=
  match (s.splitOn '.').mapM parseByte with
  | some [a, b, c, d] => some [256 * a + b, 256 * c + d]
  | _ => none

def hexDigit (c : Char) : Option Nat :=
  if '0' ≤ c ∧ c ≤ '9' then some (c.toNat - 48)
  else if 'a' ≤ c ∧ c ≤ 'f' then some (c.toNat - 87)
  else if 'A' ≤ c ∧ c ≤ 'F' then some (c.toNat - 55)
  else none

/-- A group of an IPv6 address: one to four hexadecimal digits. -/
def parseGroup (digits : List Char) : Option Nat :=
  if digits ≠ [] ∧ digits.length ≤ 4 then
    (digits.mapM hexDigit).map (List.foldl (fun n d => 16 * n + d) 0)
  else none

/-- The groups between colons; an IPv4 address may stand for the last two. -/
def parseGroups : List (List Char) → Option (List Nat)
  | [] => some []
  | [last] => ((parseGroup last).map fun g => [g]) <|> parseIPv4 last
  | digits :: rest => do
    let g ← parseGroup digits
    let gs ← parseGroups rest
    return g :: gs

/-- Cut a text at its first double colon. -/
def cutEllipsis : List Char → Option (List Char × List Char)
  | ':' :: ':' :: right => some ([], right)
  | c :: rest => (cutEllipsis rest).map fun p => (c :: p.1, p.2)
  | [] => none

/-- The groups of an IPv6 address; a double colon stands for one zero or more. -/
def parseIPv6 (s : List Char) : Option (List Nat) :=
  match cutEllipsis s with
  | none => parseGroups (s.splitOn ':')
  | some (left, right) => do
    let first ← if left = [] then some [] else (left.splitOn ':').mapM parseGroup
    let last ← if right = [] then some [] else parseGroups (right.splitOn ':')
    if first.length + last.length ≤ 7 then
      return first ++ List.replicate (8 - (first.length + last.length)) 0 ++ last
    else none

/-- Go's `net.ParseIP`; a zone is not accepted. -/
def parseIP (s : String) : Option IP :=
  let groups := ((parseIPv4 s.toList).map fun v4 => [0, 0, 0, 0, 0, 0xffff] ++ v4) <|>
    parseIPv6 s.toList
  groups.bind fun gs => if h : gs.length = 8 then some ⟨gs, h⟩ else none

namespace IP

/-- The four bytes of an IPv4 address. -/
def to4 (ip : IP) : Option (Nat × Nat × Nat × Nat) :=
  match ip.groups with
  | [0, 0, 0, 0, 0, 0xffff, x, y] => some (x / 256, x % 256, y / 256, y % 256)
  | _ => none

def isLoopback (ip : IP) : Bool :=
  match ip.to4 with
  | some (a, _) => a = 127
  | none => ip.groups = [0, 0, 0, 0, 0, 0, 0, 1]

def isPrivate (ip : IP) : Bool :=
  match ip.to4 with
  | some (a, b, _) => a = 10 ∨ (a = 172 ∧ b / 16 = 1) ∨ (a = 192 ∧ b = 168)
  -- fc00::/7
  | none => ip.groups.head?.any fun g => g / 512 = 0x7e

def isLinkLocalUnicast (ip : IP) : Bool :=
  match ip.to4 with
  | some (a, b, _) => a = 169 ∧ b = 254
  -- fe80::/10
  | none => ip.groups.head?.any fun g => g / 64 = 0x3fa

end IP

def isPrivateAddr (host : String) : Bool :=
  (parseIP host).any fun ip => ip.isLoopback || ip.isPrivate || ip.isLinkLocalUnicast

/-- The position of the last colon. -/
def lastColon (s : List Char) : Option Nat :=
  (s.reverse.findIdx? (· = ':')).map fun i => s.length - 1 - i

/-- Go's `net.SplitHostPort`: host and port of `host:port` or `[host]:port`. -/
def splitHostPort (hostport : String) : Option (String × String) := do
  let s := hostport.toList
  let i ← lastColon s
  let port := String.ofList (s.drop (i + 1))
  if s.head? = some '[' then
    let stop ← s.findIdx? (· = ']')
    if stop + 1 = i ∧ '[' ∉ s.drop 1 ∧ ']' ∉ s.drop i then
      return (String.ofList ((s.take stop).drop 1), port)
    else none
  else if ':' ∈ s.take i ∨ '[' ∈ s ∨ ']' ∈ s then none
  else return (String.ofList (s.take i), port)

/-! ## The handler's view of a request -/

/-- What decides the address of a request: its direct peer, and the values of its
`X-Forwarded-For` lines in order. -/
structure ClientRequest where
  remoteAddr : String
  forwardedFor : List String

/-- Go's `Header.Get`: the first value of a header. -/
def headerGet (values : List String) : String := values.headD ""

/-- Go's `strings.TrimSpace`. -/
def trimSpace (s : List Char) : List Char := (s.dropWhile isSpace).rdropWhile isSpace

/-- The last entry of a comma-separated list. -/
def lastEntry (list : String) : String :=
  String.ofList (trimSpace ((list.toList.splitOn ',').getLast (List.splitOn_ne_nil _ _)))

/-- The host of the direct peer. -/
def ClientRequest.host (r : ClientRequest) : String :=
  ((splitHostPort r.remoteAddr).map Prod.fst).getD r.remoteAddr

/-- The address used for rate limiting. -/
def clientIP (r : ClientRequest) : String :=
  let xff := headerGet r.forwardedFor
  if xff = "" ∨ isPrivateAddr r.host = false then r.host
  else if lastEntry xff ≠ "" then lastEntry xff
  else r.host

/-! ## The forwarded-for list -/

/-- All values of a header as one list, joined by commas in order. -/
def combined (values : List String) : String :=
  String.ofList ([',', ' '].intercalate (values.map String.toList))

/-- The address of a peer without its zone. -/
def withoutZone (host : String) : String := String.ofList (host.toList.takeWhile (· ≠ '%'))

/-- The peer has a private, loopback or link-local address, with a zone or without. -/
def isLocalPeer (host : String) : Bool := isPrivateAddr host || isPrivateAddr (withoutZone host)

/-- The last entry of the whole list, which a proxy adds. -/
def ClientRequest.proxyEntry (r : ClientRequest) : String := lastEntry (combined r.forwardedFor)

/-- Behind a local proxy the address is the proxy's entry, and for any other peer the
forwarded-for list does not matter. -/
def TrustsProxy (r : ClientRequest) : Prop :=
  (isLocalPeer r.host = false → ∀ values, clientIP { r with forwardedFor := values } = r.host) ∧
    (isLocalPeer r.host = true → r.proxyEntry ≠ "" → clientIP r = r.proxyEntry)

/-- The first line ends like the whole list; or it ends blank, or the peer's address has
a zone, and the proxy's entry is the address of the peer itself. -/
def ClientRequest.EndsAlike (r : ClientRequest) : Prop :=
  isPrivateAddr r.host = true ∧ lastEntry (headerGet r.forwardedFor) = r.proxyEntry ∨
    r.host = r.proxyEntry ∧
      (isPrivateAddr r.host = true → lastEntry (headerGet r.forwardedFor) = "")

theorem lastEntry_empty : lastEntry "" = "" := by decide

/-- The address is the last entry of the first line for a private peer, unless that is
blank, and the peer's otherwise. -/
theorem clientIP_eq (r : ClientRequest) :
    clientIP r = if isPrivateAddr r.host = true ∧ lastEntry (headerGet r.forwardedFor) ≠ "" then
      lastEntry (headerGet r.forwardedFor) else r.host := by
  unfold clientIP
  cases hpriv : isPrivateAddr r.host with
  | false => simp
  | true =>
    by_cases hxff : headerGet r.forwardedFor = ""
    · simp [hxff, lastEntry_empty]
    · simp [hxff]

/-- A peer that is not local is not private, so its header does not count. -/
theorem clientIP_of_not_local {r : ClientRequest} (h : isLocalPeer r.host = false)
    (values : List String) : clientIP { r with forwardedFor := values } = r.host := by
  have hpriv : isPrivateAddr r.host = false := (Bool.or_eq_false_iff.mp h).1
  rw [clientIP_eq, if_neg]
  · rfl
  · rintro ⟨hp, -⟩
    exact absurd (hpriv.symm.trans hp) Bool.false_ne_true

/-- A list of one line is that line. -/
theorem combined_singleton (value : String) : combined [value] = value := by
  simp [combined, List.intercalate]

/-- A single line behind a proxy without a zone ends like the whole list. -/
theorem ClientRequest.endsAlike_of_single {r : ClientRequest} {value : String}
    (hline : r.forwardedFor = [value]) (hpriv : isPrivateAddr r.host = true) : r.EndsAlike := by
  refine .inl ⟨hpriv, ?_⟩
  rw [proxyEntry, hline, combined_singleton]
  rfl

/-- A request is counted for the proxy's entry exactly if the first header line ends like
the whole list. -/
theorem trustsProxy_iff (r : ClientRequest) :
    TrustsProxy r ↔ (isLocalPeer r.host = true → r.proxyEntry ≠ "" → r.EndsAlike) := by
  have hrest : TrustsProxy r ↔
      (isLocalPeer r.host = true → r.proxyEntry ≠ "" → clientIP r = r.proxyEntry) :=
    and_iff_right clientIP_of_not_local
  rw [hrest]
  refine forall_congr' fun _ => forall_congr' fun hentry => ?_
  rw [clientIP_eq, ClientRequest.EndsAlike]
  split
  · rename_i h
    constructor
    · exact fun he => .inl ⟨h.1, he⟩
    · rintro (⟨-, he⟩ | ⟨-, hblank⟩)
      · exact he
      · exact absurd (hblank h.1) h.2
  · rename_i h
    have hblank (hpriv : isPrivateAddr r.host = true) :
        lastEntry (headerGet r.forwardedFor) = "" := by
      by_contra hne
      exact h ⟨hpriv, hne⟩
    constructor
    · exact fun he => .inr ⟨he, hblank⟩
    · rintro (⟨hpriv, he⟩ | ⟨he, -⟩)
      · exact absurd (he.symm.trans (hblank hpriv)) hentry
      · exact he

/-- With a single line the client has no say, unless the peer's address has a zone. -/
theorem trustsProxy_of_single {r : ClientRequest} {value : String}
    (hline : r.forwardedFor = [value]) (hzone : isLocalPeer r.host = isPrivateAddr r.host) :
    TrustsProxy r :=
  (trustsProxy_iff r).mpr fun hpeer _ => r.endsAlike_of_single hline (hzone ▸ hpeer)

/-- When a request is counted for the address that the proxy saw, whatever the client put
into the forwarded-for list; requests that differ in nothing else share a bucket. -/
theorem clientIP_trusts_proxy_iff (r : ClientRequest) :
    (TrustsProxy r ↔ (isLocalPeer r.host = true → r.proxyEntry ≠ "" → r.EndsAlike)) ∧
      ∀ r' : ClientRequest, r'.remoteAddr = r.remoteAddr →
        (isLocalPeer r.host = true → r'.proxyEntry = r.proxyEntry ∧ r.proxyEntry ≠ "" ∧
          r.EndsAlike ∧ r'.EndsAlike) →
        clientIP r' = clientIP r := by
  refine ⟨trustsProxy_iff r, fun r' hremote h => ?_⟩
  have hhost : r'.host = r.host := by rw [ClientRequest.host, hremote, ClientRequest.host]
  cases hpeer : isLocalPeer r.host with
  | false =>
    have hr := clientIP_of_not_local hpeer r.forwardedFor
    have hr' := clientIP_of_not_local (hhost.symm ▸ hpeer) r'.forwardedFor
    exact hr'.trans (hhost.trans hr.symm)
  | true =>
    obtain ⟨hentry, hne, hends, hends'⟩ := h hpeer
    have hr := ((trustsProxy_iff r).mpr fun _ _ => hends).2 hpeer hne
    have hr' := ((trustsProxy_iff r').mpr fun _ _ => hends').2 (hhost.symm ▸ hpeer)
      (hentry.symm ▸ hne)
    exact hr'.trans (hentry.trans hr.symm)

/-- A client sends a header line of its own, and the proxy adds another one below it:
the request is counted for the address that the client made up. -/
theorem clientIP_second_line :
    ¬ TrustsProxy ⟨"10.0.0.5:1234", ["1.1.1.1", "198.51.100.7"]⟩ := by
  intro h
  exact absurd (h.2 (by decide +kernel) (by decide +kernel)) (by decide +kernel)

end Broom.Api
