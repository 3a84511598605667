import KappaRegistry.Json

/-!
# A JSON Reader and Writer

The model takes `serde_json` as a parameter. This is one instance of it, complete enough to run
the model on request bodies and metadata as they go over the wire: characters below U+0800,
integers, and the short escapes. A text outside that fragment does not parse. The writer keeps the order of members.
-/

namespace KappaRegistry.Json

/-- The characters of a text in UTF-8, of at most two bytes each. -/
def readChars : Bytes → Option (List Char)
  | [] => some []
  | [b] => if b < 128 then some [Char.ofNat b.toNat] else none
  | b :: c :: rest =>
    if b < 128 then (readChars (c :: rest)).map (Char.ofNat b.toNat :: ·)
    else if 194 ≤ b ∧ b < 224 ∧ 128 ≤ c ∧ c < 192 then
      (readChars rest).map (Char.ofNat ((b.toNat - 192) * 64 + (c.toNat - 128)) :: ·)
    else none

def skipSpace : List Char → List Char
  | c :: cs => if c ∈ [' ', '\n', '\t', '\r'] then skipSpace cs else c :: cs
  | [] => []

/-- The rest of a string literal, after its opening quote. -/
def readString : List Char → Option (List Char × List Char)
  | '"' :: cs => some ([], cs)
  | '\\' :: c :: cs => do
    let d ← [('"', '"'), ('\\', '\\'), ('/', '/'), ('n', '\n'), ('t', '\t'), ('r', '\r')].lookup c
    let (s, rest) ← readString cs
    return (d :: s, rest)
  | c :: cs => do
    let (s, rest) ← readString cs
    return (c :: s, rest)
  | [] => none

def readDigits (acc : ℕ) : List Char → ℕ × List Char
  | c :: cs => if c.isDigit then readDigits (10 * acc + (c.toNat - 48)) cs else (acc, c :: cs)
  | [] => (acc, [])

mutual

/-- A value, after any white space. The fuel bounds the nesting. -/
def readValue : ℕ → List Char → Option (Json × List Char)
  | 0, _ => none
  | fuel + 1, cs =>
    match skipSpace cs with
    | 'n' :: 'u' :: 'l' :: 'l' :: rest => some (.null, rest)
    | 't' :: 'r' :: 'u' :: 'e' :: rest => some (.bool true, rest)
    | 'f' :: 'a' :: 'l' :: 's' :: 'e' :: rest => some (.bool false, rest)
    | '"' :: rest => (readString rest).map fun (s, rest) => (.str (String.ofList s), rest)
    | '[' :: rest =>
      match skipSpace rest with
      | ']' :: rest => some (.arr [], rest)
      | rest => (readItems fuel rest).map fun (xs, rest) => (.arr xs, rest)
    | '{' :: rest =>
      match skipSpace rest with
      | '}' :: rest => some (.obj [], rest)
      | rest => (readMembers fuel rest).map fun (ms, rest) => (.obj ms, rest)
    | '-' :: rest =>
      let (n, rest) := readDigits 0 rest
      some (.num (.negInt n), rest)
    | c :: rest =>
      if c.isDigit then
        let (n, rest) := readDigits 0 (c :: rest)
        some (.num (.posInt n), rest)
      else none
    | [] => none

/-- The items of an array up to its closing bracket. -/
def readItems : ℕ → List Char → Option (List Json × List Char)
  | 0, _ => none
  | fuel + 1, cs => do
    let (x, rest) ← readValue fuel cs
    match skipSpace rest with
    | ',' :: rest =>
      let (xs, rest) ← readItems fuel rest
      return (x :: xs, rest)
    | ']' :: rest => return ([x], rest)
    | _ => none

/-- The members of an object up to its closing brace. -/
def readMembers : ℕ → List Char → Option (List (String × Json) × List Char)
  | 0, _ => none
  | fuel + 1, cs =>
    match skipSpace cs with
    | '"' :: rest => do
      let (k, rest) ← readString rest
      match skipSpace rest with
      | ':' :: rest =>
        let (v, rest) ← readValue fuel rest
        match skipSpace rest with
        | ',' :: rest =>
          let (ms, rest) ← readMembers fuel rest
          return ((String.ofList k, v) :: ms, rest)
        | '}' :: rest => return ([(String.ofList k, v)], rest)
        | _ => none
      | _ => none
    | _ => none

end

/-- A whole text: one value and nothing but white space after it. -/
def read (bytes : Bytes) : Option Json := do
  let cs ← readChars bytes
  let (v, rest) ← readValue (cs.length + 1) cs
  if skipSpace rest = [] then some v else none

def quote (s : String) : List Char :=
  '"' :: (s.toList.flatMap fun c => if c = '"' ∨ c = '\\' then ['\\', c] else [c]) ++ ['"']

mutual

def write : Json → List Char
  | .null => ['n', 'u', 'l', 'l']
  | .bool b => if b then ['t', 'r', 'u', 'e'] else ['f', 'a', 'l', 's', 'e']
  | .num (.posInt n) => (toString n).toList
  | .num (.negInt n) => '-' :: (toString n).toList
  | .num (.float t) => t.toList
  | .str s => quote s
  | .arr xs => '[' :: [','].intercalate (writeItems xs) ++ [']']
  | .obj ms => '{' :: [','].intercalate (writeMembers ms) ++ ['}']

def writeItems : List Json → List (List Char)
  | [] => []
  | x :: xs => write x :: writeItems xs

def writeMembers : List (String × Json) → List (List Char)
  | [] => []
  | (k, v) :: ms => (quote k ++ ':' :: write v) :: writeMembers ms

end

end KappaRegistry.Json

namespace KappaRegistry

/-- The reader and writer as an instance of `serde_json`. -/
def SerdeJson.text : SerdeJson := ⟨Json.read, fun v => v.write.flatMap String.utf8EncodeChar⟩

end KappaRegistry
