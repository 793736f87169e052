import OhMyPi.Slopjson.Value

/-! The repair of a text that goes from string to string, without its structure: raw control
characters inside strings are escaped and the backslash of an invalid escape is. -/

namespace OhMyPi.Slopjson

open JsonTokens

/-- Characters that may follow a backslash. -/
def isValidEscape (c : Char) : Bool := (shortEscape c).isSome || c = 'u'

inductive Cow
  | borrowed
  | owned (text : List Char)

/-- The output so far, if any, and the verbatim run behind it. -/
structure Output where
  out : Option (List Char)
  run : List Char

def Output.keep (o : Output) (text : List Char) : Output := { o with run := o.run ++ text }

/-- Flush the run and put `text` in the place of the next character. -/
def Output.flush (o : Output) (text : List Char) : Output := ⟨some (o.out.getD [] ++ o.run ++ text), []⟩

def Output.finish (o : Output) : Cow := o.out.elim .borrowed fun out => .owned (out ++ o.run)

/-- What a raw control character becomes. -/
def controlText (c : Char) : List Char :=
  if c.toNat = 0x08 then ['\\', 'b']
  else if c = '\t' then ['\\', 't']
  else if c = '\n' then ['\\', 'n']
  else if c.toNat = 0x0c then ['\\', 'f']
  else if c = '\r' then ['\\', 'r']
  else ['\\', 'u', '0', '0', hexChar (c.toNat / 16), hexChar c.toNat]

def repairLoop : List Char → Bool → Output → Output
  | [], _, o => o
  | c :: rest, inString, o =>
    if inString = false then repairLoop rest (c = '"') (o.keep [c])
    else if c = '"' then repairLoop rest false (o.keep [c])
    else if c = '\\' then
      match rest with
      | [] => o.flush ['\\', '\\']
      | 'u' :: hex =>
        match hex with
        | a :: b :: c :: d :: rest =>
          if (unitOf a b c d).isSome then repairLoop rest true (o.keep ['\\', 'u', a, b, c, d])
          else repairLoop ('u' :: a :: b :: c :: d :: rest) true (o.flush ['\\', '\\'])
        | hex => repairLoop ('u' :: hex) true (o.flush ['\\', '\\'])
      | e :: rest =>
        if isValidEscape e then repairLoop rest true (o.keep ['\\', e])
        else repairLoop (e :: rest) true (o.flush ['\\', '\\'])
    else if c.toNat < 0x20 then repairLoop rest true (o.flush (controlText c))
    else repairLoop rest true (o.keep [c])

def repairJson (json : List Char) : Cow := (repairLoop json false ⟨none, []⟩).finish

end OhMyPi.Slopjson
