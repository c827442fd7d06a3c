import BlockVM.Command.Flags
import BlockVM.Command.World
import BlockVM.Image.Decode
import BlockVM.Isa.Decode
import BlockVM.Text.Yaml

/-!
# Packing and describing images

`pack` builds an image from files with code and global data. `info` describes one, with the number
of instructions that follow each other from the start of the code on.
-/

namespace BlockVM.Command

def load (c : Image.Codec) (w : World) (path : String) : Except String Program := do
  let b ← w.read path
  match Image.decode c b with
  | .ok p => return p
  | .error f => throw (path ++ ": " ++ f.message)

/-- The text of what ended an operation. -/
def stopText : Stop → String
  | .failure f => f.message
  | .abort r => "panic: " ++ r.getD "runtime error"

/-! ## pack -/

def packFlags : List Flag := [
  ⟨"code", .text, "raw bytecode file (required)", ""⟩,
  ⟨"global", .text, "raw initial global data file", ""⟩,
  ⟨"o", .text, "output image path", "out.dspx"⟩,
  ⟨"stack", .whole, "stack size in bytes", "65536"⟩,
  ⟨"data", .whole, "data space size in bytes", "4096"⟩,
  ⟨"start", .whole, "code start address", "0"⟩,
  ⟨"param", .whole, "value stored at the base of the first core's data space", "0"⟩]

def pack (w : World) (g : Given) : Except String (World × String) := do
  let text := g.text packFlags
  let number := g.whole packFlags
  if text "code" = "" then throw "-code is required"
  let code ← w.read (text "code")
  let global ← if text "global" = "" then pure [] else w.read (text "global")
  match Isa.peek code.toArray (number "start").toInt64 with
  | .error e => throw ("code start: " ++ stopText e)
  | .ok _ =>
    let header : Header := {
      stackSize := (number "stack").toUInt32
      dataSize := (number "data").toUInt32
      codeStart := (number "start").toUInt32
      param := number "param" }
    let p : Program := ⟨header, code.toArray, global⟩
    let w ← w.write (text "o") (Image.encode .standard p)
    return (w, Image.id .standard p ++ " " ++ text "o" ++ "\n")

/-! ## info -/

/-- The description of a program. An instruction that cannot be decoded is mentioned by its address,
unless that is 0. -/
def describe (c : Image.Codec) (p : Program) : Yaml :=
  let (insts, stop) := Isa.sweep p.code 0
  let stopped : Int := match stop, insts.getLast? with
    | some _, some i => i.next.toInt
    | _, _ => 0
  .fields ([
    ("id", .text (Image.id c p)),
    ("header", .fields [
      ("stackSize", .nat p.header.stackSize.toNat),
      ("dataSize", .nat p.header.dataSize.toNat),
      ("codeStart", .nat p.header.codeStart.toNat),
      ("param", .nat p.header.param.toNat)]),
    ("codeBytes", .nat p.code.size),
    ("globalBytes", .nat p.global.length),
    ("instructions", .nat insts.length)]
    ++ (if stopped = 0 then [] else [("firstUndecodable", .int stopped)]))

/-- Describes an image, with a printer for the description. -/
def info (c : Image.Codec) (print : Yaml → String) (w : World) (g : Given) :
    Except String String := do
  match g.rest with
  | [path] => return print (describe c (← load c w path))
  | _ => throw "expected one image path"

end BlockVM.Command
