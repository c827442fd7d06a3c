/-!
# Network addresses

An address is a host and a port with a colon between them. A host that has colons itself stands in
brackets. `check` says what is wrong with an address that has not this form.
-/

namespace BlockVM.HostPort

def services : List String := ["domain", "ftp", "ftps", "gopher", "http", "https", "imap2", "imap3",
  "imaps", "pop3", "pop3s", "smtp", "submissions", "ssh", "telnet"]

def complain (address what : String) : String := "address " ++ address ++ ": " ++ what

def port (address : String) : Except String String :=
  let cs := address.toList
  let after := (cs.reverse.takeWhile (· != ':')).reverse
  if !cs.contains ':' then .error (complain address "missing port in address")
  else
    let before := cs.take (cs.length - after.length - 1)
    match cs with
    | '[' :: rest =>
      if !rest.contains ']' then .error (complain address "missing ']' in address")
      else
        let inside := rest.takeWhile (· != ']')
        let beyond := rest.drop (inside.length + 1)
        match beyond with
        | ':' :: tail =>
          if tail.contains ':' then .error (complain address "too many colons in address")
          else if inside.contains '[' || tail.contains '[' then
            .error (complain address "unexpected '[' in address")
          else if tail.contains ']' then .error (complain address "unexpected ']' in address")
          else .ok (String.ofList tail)
        | _ => .error (complain address "missing port in address")
    | _ =>
      if before.contains ':' then .error (complain address "too many colons in address")
      else if cs.contains '[' then .error (complain address "unexpected '[' in address")
      else if cs.contains ']' then .error (complain address "unexpected ']' in address")
      else .ok (String.ofList after)

/-- What is wrong with an address for a protocol, if anything is. -/
def check (protocol address : String) : Except String Unit := do
  let p ← port address
  let (negative, digits) := match p.toList with
    | '-' :: ds => (true, ds)
    | '+' :: ds => (false, ds)
    | ds => (false, ds)
  if digits.all Char.isDigit then
    let n := digits.foldl (fun n c => min 65536 (10 * n + (c.toNat - 48))) 0
    if 65535 < n ∨ (negative ∧ 0 < n) then throw (complain p "invalid port")
  else if !services.contains p then
    throw ("lookup " ++ protocol ++ "/" ++ p ++ ": unknown port")

end BlockVM.HostPort
