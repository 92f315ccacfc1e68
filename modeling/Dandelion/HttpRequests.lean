import Dandelion.AsciiText
import Dandelion.Errors
import Dandelion.Slices
import Dandelion.Usize

/-!
# HTTP requests

A request comes as text: a line with the method, the URI and the version, a line for each header
and an empty line; all bytes after that are the body. `HttpRequest::from_raw` reads any bytes
without a panic, and reads a request that was written in this form for what it is, whatever the
bytes of its body.
-/

namespace Dandelion

open Outcome Bson AsciiText

/-! ## The model -/

/-- The names and values of headers. `from_bytes` makes them of bytes, and they stand for bytes. -/
structure HeaderTypes where
  Name : Type
  Value : Type
  nameDecEq : DecidableEq Name
  nameFromBytes : List UInt8 → Option Name
  nameBytes : Name → List UInt8
  valueFromBytes : List UInt8 → Option Value
  valueBytes : Value → List UInt8

attribute [instance] HeaderTypes.nameDecEq

/-- A multimap without a bound on its size, that keeps the values of a name in order. -/
abbrev HeaderMap (Name Value : Type) := List (Name × List Value)

namespace HeaderMap

variable {Name Value : Type} [DecidableEq Name]

/-- `append` to the entry of a name if it is occupied, `insert` if it is vacant. -/
def append : HeaderMap Name Value → Name → Value → HeaderMap Name Value
  | [], key, value => [(key, [value])]
  | (name, values) :: rest, key, value =>
    if name = key then (name, values ++ [value]) :: rest else (name, values) :: append rest key value

def getAll : HeaderMap Name Value → Name → List Value
  | [], _ => []
  | (name, values) :: rest, key => if name = key then values else getAll rest key

end HeaderMap

inductive HttpMethod where
  | get
  | post
  | put
deriving DecidableEq, Repr

inductive HttpVersion where
  | http09
  | http10
  | http11
  | http2
  | http3
deriving DecidableEq, Repr

structure HttpRequest (types : HeaderTypes) where
  itemName : String
  itemKey : Nat
  method : HttpMethod
  uri : String
  version : HttpVersion
  headermap : HeaderMap types.Name types.Value
  body : List UInt8

namespace HttpRequest

def newline : UInt8 := 10

def colon : UInt8 := 58

def parseMethod : Option String → DandelionResult HttpMethod
  | some method =>
    if method = "GET" then pure .get
    else if method = "POST" then pure .post
    else if method = "PUT" then pure .put
    else fail (.invalidSystemFuncArg ("Unsupported Method: " ++ method))
  | none => fail (.malformedSystemFuncArg "No method found")

def parseVersion : Option String → DandelionResult HttpVersion
  | some version =>
    if version = "HTTP/0.9" then pure .http09
    else if version = "HTTP/1.0" then pure .http10
    else if version = "HTTP/1.1" then pure .http11
    else if version = "HTTP/2.0" then pure .http2
    else if version = "HTTP/3.0" then pure .http3
    else fail (.invalidSystemFuncArg ("Unkown http version: " ++ version))
  | none => fail (.malformedSystemFuncArg "No http version found")

/-- What an option holds, or a malformed argument. -/
def okOr {α : Type} (message : String) : Option α → DandelionResult α
  | some a => pure a
  | none => fail (.malformedSystemFuncArg message)

def parseLine (line : List UInt8) : DandelionResult String :=
  match String.fromUTF8? ⟨line.toArray⟩ with
  | some requestLine => pure requestLine
  | none => fail (.invalidSystemFuncArg "Request line not utf8")

def bodyAt (rawRequest : List UInt8) (headerIndex : Nat) : DandelionResult (List UInt8) :=
  if headerIndex < rawRequest.length then Slices.rangeFrom rawRequest headerIndex else pure []

variable (types : HeaderTypes)

def parseHeader (headerLine : List UInt8) : DandelionResult (types.Name × types.Value) := do
  let splitIndex ← okOr "Header line does not contain ':'" (headerLine.findIdx? (· = colon))
  let key ← Slices.range headerLine 0 splitIndex
  let value ← Slices.rangeFrom headerLine splitIndex
  let headerKey ← okOr "Header key not utf-8" (types.nameFromBytes key)
  let value ← Slices.rangeFrom value 1
  let headerValue ← okOr "Header value not utf-8 conformant" (types.valueFromBytes value)
  pure (headerKey, headerValue)

/-- The line that starts at an index, without its line break. -/
def lineAt (rawRequest : List UInt8) (headerIndex : Nat) : DandelionResult (List UInt8) := do
  let rest ← Slices.rangeFrom rawRequest headerIndex
  match rest.findIdx? (· = newline) with
  | some headerEnd => do
    let stop ← Usize.add .checked headerIndex headerEnd
    Slices.range rawRequest headerIndex stop
  | none => Slices.rangeFrom rawRequest headerIndex

/-- A round of the loop over the header lines: it reads the line at an index, or leaves with the
index of what follows the headers. -/
def headerRound (rawRequest : List UInt8) : Nat × HeaderMap types.Name types.Value →
    DandelionResult ((Nat × HeaderMap types.Name types.Value) ⊕ Nat × HeaderMap types.Name types.Value)
  | (headerIndex, headermap) =>
    if headerIndex < rawRequest.length then do
      let headerLine ← lineAt rawRequest headerIndex
      -- skip the line break
      let headerIndex ← Usize.add .checked headerIndex (headerLine.length + 1)
      if headerLine.length = 0 then pure (.inr (headerIndex, headermap))
      else do
        let (headerKey, headerValue) ← parseHeader types headerLine
        pure (.inl (headerIndex, headermap.append headerKey headerValue))
    else pure (.inr (headerIndex, headermap))

def fromRaw (rawRequest : List UInt8) (itemName : String) (itemKey : Nat) :
    DandelionResult (HttpRequest types) := do
  let requestIndex := (rawRequest.findIdx? (· = newline)).getD rawRequest.length
  let line ← Slices.range rawRequest 0 requestIndex
  let requestLine ← parseLine line
  let items := splitAsciiWhitespace requestLine
  let method ← parseMethod items[0]?
  let uri ← okOr "No uri in request" items[1]?
  let version ← parseVersion items[2]?
  let headerIndex ← Usize.add .checked requestIndex 1
  let (headerIndex, headermap) ←
    loop (headerRound types rawRequest) (rawRequest.length + 1) (headerIndex, [])
  let body ← bodyAt rawRequest headerIndex
  pure { itemName, itemKey, method, uri, version, headermap, body }

end HttpRequest

/-! ## Requests in writing -/

def HttpMethod.text : HttpMethod → String
  | .get => "GET"
  | .post => "POST"
  | .put => "PUT"

def HttpVersion.text : HttpVersion → String
  | .http09 => "HTTP/0.9"
  | .http10 => "HTTP/1.0"
  | .http11 => "HTTP/1.1"
  | .http2 => "HTTP/2.0"
  | .http3 => "HTTP/3.0"

namespace HttpRequest

/-- The first line, without its line break. -/
def requestLine (method : HttpMethod) (uri : String) (version : HttpVersion) : String :=
  method.text ++ " " ++ uri ++ " " ++ version.text

/-- The line of a header, given as the bytes of its name and its value. -/
def headerLine (header : List UInt8 × List UInt8) : List UInt8 :=
  header.1 ++ colon :: header.2 ++ [newline]

/-- The input of the HTTP function for a request. -/
def render (method : HttpMethod) (uri : String) (version : HttpVersion)
    (headers : List (List UInt8 × List UInt8)) (body : List UInt8) : List UInt8 :=
  utf8Bytes (requestLine method uri version) ++ newline ::
    (headers.flatMap headerLine ++ newline :: body)

end HttpRequest

namespace HeaderTypes

/-- A byte that the names of headers are made of: a digit, a letter, or one of the fifteen signs that
a token may have. -/
def isTokenByte (b : UInt8) : Bool :=
  (48 ≤ b && b ≤ 57) || (65 ≤ b && b ≤ 90) || (97 ≤ b && b ≤ 122) ||
    [33, 35, 36, 37, 38, 39, 42, 43, 45, 46, 94, 95, 96, 124, 126].contains b

/-- A byte that the values of headers are made of. -/
def isFieldByte (b : UInt8) : Bool := (32 ≤ b && b ≠ 127) || b = 9

def lowerByte (b : UInt8) : UInt8 := if 65 ≤ b && b ≤ 90 then b + 32 else b

/-- What `from_bytes` promises. Names are tokens of at least one byte and are kept in lower case;
values are of visible bytes, and are kept as they are. -/
structure Lawful (types : HeaderTypes) : Prop where
  name_token : ∀ bytes name, types.nameFromBytes bytes = some name →
    bytes ≠ [] ∧ ∀ b ∈ bytes, isTokenByte b
  name_lower : ∀ bytes name, types.nameFromBytes bytes = some name →
    types.nameBytes name = bytes.map lowerByte
  nameBytes_injective : types.nameBytes.Injective
  value_field : ∀ bytes value, types.valueFromBytes bytes = some value →
    ∀ b ∈ bytes, isFieldByte b
  value_bytes : ∀ bytes value, types.valueFromBytes bytes = some value → types.valueBytes value = bytes

/-- A valid name in lower case, and a valid value. -/
structure ValidHeader (types : HeaderTypes) (header : List UInt8 × List UInt8) : Prop where
  name : (types.nameFromBytes header.1).isSome
  lower : header.1.map lowerByte = header.1
  value : (types.valueFromBytes header.2).isSome

end HeaderTypes

/-! ## Header maps -/

namespace HeaderMap

variable {Name Value : Type} [DecidableEq Name]

theorem getAll_append (map : HeaderMap Name Value) (key : Name) (value : Value) (name : Name) :
    (map.append key value).getAll name =
      if key = name then map.getAll name ++ [value] else map.getAll name := by
  induction map with
  | nil =>
    rw [append, getAll, getAll]
    rfl
  | cons entry rest ih =>
    obtain ⟨other, values⟩ := entry
    rw [append]
    by_cases hkey : other = key
    · subst hkey
      rw [if_pos rfl, getAll, getAll]
      by_cases hname : other = name
      · rw [if_pos hname, if_pos hname, if_pos hname]
      · rw [if_neg hname, if_neg hname, if_neg hname]
    · rw [if_neg hkey, getAll, getAll, ih]
      by_cases hname : other = name
      · subst hname
        rw [if_pos rfl, if_pos rfl, if_neg (Ne.symm hkey)]
      · rw [if_neg hname, if_neg hname]

end HeaderMap

/-! ## Header lines -/

namespace HttpRequest

variable {types : HeaderTypes}

theorem okOr_returns {α : Type} (message : String) (a : Option α) : Returns (okOr message a) := by
  cases a with
  | none => exact returns_fail _
  | some a => exact returns_ok a

theorem okOr_some {α : Type} (message : String) (a : α) : okOr message (some a) = .ok a := rfl

theorem parseHeader_returns (headerLine : List UInt8) : Returns (parseHeader types headerLine) := by
  rw [parseHeader]
  cases hsplit : headerLine.findIdx? (· = colon) with
  | none => exact returns_fail _
  | some splitIndex =>
    have hlt : splitIndex < headerLine.length := (List.findIdx?_eq_some_iff_findIdx_eq.mp hsplit).1
    rw [okOr_some, ok_bind, Slices.range_eq_ok (Nat.zero_le _) (Nat.le_of_lt hlt), ok_bind,
      Slices.rangeFrom_eq_ok (Nat.le_of_lt hlt), ok_bind]
    refine (returns_bind _ _).mpr ⟨okOr_returns _ _, fun headerKey _ => ?_⟩
    have hone : 1 ≤ (headerLine.drop splitIndex).length := by
      rw [List.length_drop]
      omega
    rw [Slices.rangeFrom_eq_ok hone, ok_bind]
    refine (returns_bind _ _).mpr ⟨okOr_returns _ _, fun headerValue _ => ?_⟩
    exact returns_ok _

theorem findIdx?_append_cons {sep : UInt8} {before : List UInt8} (h : sep ∉ before) (rest : List UInt8) :
    (before ++ sep :: rest).findIdx? (· = sep) = some before.length := by
  have hbefore : before.findIdx? (· = sep) = none := by
    rw [List.findIdx?_eq_none_iff]
    intro b hb
    exact decide_eq_false fun heq => h (heq ▸ hb)
  rw [List.findIdx?_append, hbefore, List.findIdx?_cons, if_pos (decide_eq_true rfl)]
  simp

theorem parseHeader_headerLine {key value : List UInt8} {headerKey : types.Name} {headerValue : types.Value}
    (hcolon : colon ∉ key) (hkey : types.nameFromBytes key = some headerKey)
    (hvalue : types.valueFromBytes value = some headerValue) :
    parseHeader types (key ++ colon :: value) = .ok (headerKey, headerValue) := by
  have hlength : key.length ≤ (key ++ colon :: value).length := by simp
  rw [parseHeader, findIdx?_append_cons hcolon, okOr_some, ok_bind,
    Slices.range_eq_ok (Nat.zero_le _) hlength, ok_bind, Slices.rangeFrom_eq_ok hlength, ok_bind,
    List.drop_zero, Nat.sub_zero, List.take_left, List.drop_left, hkey, okOr_some, ok_bind,
    Slices.rangeFrom_eq_ok (by simp), ok_bind, List.drop_one, List.tail_cons, hvalue, okOr_some, ok_bind]
  rfl

theorem lineAt_eq {rawRequest : List UInt8} (hvec : rawRequest.length ≤ Usize.isizeMax) {headerIndex : Nat}
    (h : headerIndex ≤ rawRequest.length) :
    lineAt rawRequest headerIndex =
      .ok ((rawRequest.drop headerIndex).takeWhile fun b => !(b = newline)) := by
  have htake := Slices.take_findIdx? (fun b => decide (b = newline)) (rawRequest.drop headerIndex)
  rw [lineAt, Slices.rangeFrom_eq_ok h, ok_bind, ← htake]
  cases hfind : (rawRequest.drop headerIndex).findIdx? (· = newline) with
  | none => rfl
  | some headerEnd =>
    have hlt := (List.findIdx?_eq_some_iff_findIdx_eq.mp hfind).1
    rw [List.length_drop] at hlt
    have hadd : headerIndex + headerEnd < Usize.limit := by
      unfold Usize.isizeMax Usize.limit at *
      omega
    simp only [Usize.add_eq_ok hadd, ok_bind]
    rw [Slices.range_eq_ok (Nat.le_add_right _ _) (by omega), Nat.add_sub_cancel_left]

theorem bodyAt_eq (rawRequest : List UInt8) (headerIndex : Nat) :
    bodyAt rawRequest headerIndex = .ok (rawRequest.drop headerIndex) := by
  rw [bodyAt]
  split
  · next hlt => exact Slices.rangeFrom_eq_ok (Nat.le_of_lt hlt)
  · next hge =>
    rw [List.drop_of_length_le (Nat.le_of_not_lt hge)]
    rfl

theorem parseLine_returns (line : List UInt8) : Returns (parseLine line) := by
  rw [parseLine]
  split
  · exact returns_ok _
  · exact returns_fail _

theorem parseMethod_returns (method : Option String) : Returns (parseMethod method) := by
  fun_cases parseMethod method <;> simp

theorem parseVersion_returns (version : Option String) : Returns (parseVersion version) := by
  fun_cases parseVersion version <;> simp

theorem parseMethod_text (method : HttpMethod) : parseMethod (some method.text) = .ok method := by
  cases method <;> rfl

theorem parseVersion_text (version : HttpVersion) : parseVersion (some version.text) = .ok version := by
  cases version <;> rfl

/-! ## The loop over the header lines -/

section Loop

variable {rawRequest : List UInt8} (hvec : rawRequest.length ≤ Usize.isizeMax)
include hvec

/-- A round inside the request goes behind the line break of its line. -/
theorem headerRound_eq {headerIndex : Nat} (h : headerIndex < rawRequest.length)
    (headermap : HeaderMap types.Name types.Value) {line : List UInt8}
    (hline : (rawRequest.drop headerIndex).takeWhile (fun b => !(b = newline)) = line) :
    headerRound types rawRequest (headerIndex, headermap) =
      if line = [] then .ok (.inr (headerIndex + 1, headermap))
      else parseHeader types line >>= fun header =>
        .ok (.inl (headerIndex + (line.length + 1), headermap.append header.1 header.2)) := by
  have hlength : line.length ≤ rawRequest.length := by
    rw [← hline]
    exact Nat.le_trans (List.takeWhile_sublist _).length_le (List.drop_sublist _ _).length_le
  have hadd : headerIndex + (line.length + 1) < Usize.limit := by
    unfold Usize.isizeMax Usize.limit at *
    omega
  rw [headerRound, if_pos h, lineAt_eq hvec (Nat.le_of_lt h), hline, ok_bind, Usize.add_eq_ok hadd, ok_bind]
  simp only [List.length_eq_zero_iff]
  split
  · next hnil =>
    rw [hnil]
    rfl
  · rfl

theorem loop_returns (headerIndex : Nat) (headermap : HeaderMap types.Name types.Value) :
    Returns (loop (headerRound types rawRequest) (rawRequest.length + 1) (headerIndex, headermap)) := by
  refine (meets_returns_iff _ fun _ => True).mp ?_ |>.1
  refine loop_meets (fun _ => True) (fun s => rawRequest.length - s.1) ?_ _ _ trivial (by omega)
  -- every round goes on to a later line
  rintro ⟨index, map⟩ -
  rw [meets_returns_iff]
  by_cases h : index < rawRequest.length
  · rw [headerRound_eq hvec h map rfl]
    split
    · exact ⟨returns_ok _, fun r hr => by cases hr; trivial⟩
    · refine ⟨(returns_bind _ _).mpr ⟨parseHeader_returns _, fun _ _ => returns_ok _⟩, fun r hr => ?_⟩
      obtain ⟨header, -, hheader⟩ := (bind_eq_ok_iff _ _ _).mp hr
      cases hheader
      refine ⟨trivial, ?_⟩
      change rawRequest.length - (index + _) < rawRequest.length - index
      omega
  · rw [headerRound, if_neg h]
    exact ⟨returns_ok _, fun r hr => by cases hr; trivial⟩

omit hvec in
/-- The line at the front of what is left, and what is left behind it. -/
theorem line_of_drop {headerIndex : Nat} {line rest : List UInt8}
    (h : rawRequest.drop headerIndex = line ++ newline :: rest) (hline : newline ∉ line) :
    headerIndex < rawRequest.length ∧
      (rawRequest.drop headerIndex).takeWhile (fun b => !(b = newline)) = line ∧
      rawRequest.drop (headerIndex + (line.length + 1)) = rest := by
  refine ⟨Nat.lt_of_not_le fun hle => ?_, ?_, ?_⟩
  · rw [List.drop_of_length_le hle] at h
    exact absurd h.symm (by simp)
  · rw [h, List.takeWhile_append_of_pos, List.takeWhile_cons_of_neg (by simp), List.append_nil]
    intro b hb
    have hne : b ≠ newline := fun heq => hline (heq ▸ hb)
    simp [hne]
  · rw [← List.drop_drop, h, ← List.drop_drop, List.drop_left]
    rfl

/-- The loop reads the lines of the headers, and stops behind the empty line. -/
theorem loop_headers (hlawful : types.Lawful) {body : List UInt8}
    (headers : List (List UInt8 × List UInt8)) (hvalid : ∀ header ∈ headers, types.ValidHeader header)
    {headerIndex fuel : Nat} (headermap : HeaderMap types.Name types.Value)
    (hdrop : rawRequest.drop headerIndex = headers.flatMap headerLine ++ newline :: body)
    (hfuel : headers.length < fuel) :
    ∃ stop result, loop (headerRound types rawRequest) fuel (headerIndex, headermap) = .ok (stop, result) ∧
      rawRequest.drop stop = body ∧ ∀ name, (result.getAll name).map types.valueBytes =
        (headermap.getAll name).map types.valueBytes ++
          (headers.filter fun header => header.1 = types.nameBytes name).map Prod.snd := by
  induction headers generalizing headerIndex fuel headermap with
  | nil =>
    obtain ⟨fuel, rfl⟩ : ∃ n, fuel = n + 1 := ⟨fuel - 1, by omega⟩
    obtain ⟨hlt, hline, hbody⟩ := line_of_drop hdrop List.not_mem_nil
    refine ⟨headerIndex + 1, headermap, ?_, hbody, fun name => ?_⟩
    · rw [loop_succ, headerRound_eq hvec hlt headermap hline]
      rfl
    · rw [List.filter_nil, List.map_nil, List.append_nil]
  | cons header headers ih =>
    obtain ⟨key, value⟩ := header
    obtain ⟨hhead, hrest⟩ := List.forall_mem_cons.mp hvalid
    obtain ⟨fuel, rfl⟩ : ∃ n, fuel = n + 1 := ⟨fuel - 1, by omega⟩
    obtain ⟨headerKey, hkey⟩ := Option.isSome_iff_exists.mp hhead.name
    obtain ⟨headerValue, hvalue⟩ := Option.isSome_iff_exists.mp hhead.value
    obtain ⟨hkeyNil, htoken⟩ := hlawful.name_token key headerKey hkey
    have hkeyBytes : types.nameBytes headerKey = key := (hlawful.name_lower _ _ hkey).trans hhead.lower
    have hvalueBytes : types.valueBytes headerValue = value := hlawful.value_bytes _ _ hvalue
    have hcolon : colon ∉ key := fun hmem => absurd (htoken _ hmem) (by decide)
    have hnewline : newline ∉ key ++ colon :: value := by
      intro hmem
      rcases List.mem_append.mp hmem with hmem | hmem
      · exact absurd (htoken _ hmem) (by decide)
      · rcases List.mem_cons.mp hmem with heq | hmem
        · exact absurd heq (by decide)
        · exact absurd (hlawful.value_field _ _ hvalue _ hmem) (by decide)
    rw [List.flatMap_cons, headerLine, List.append_assoc, List.append_assoc] at hdrop
    obtain ⟨hlt, hline, hnext⟩ := line_of_drop hdrop hnewline
    obtain ⟨stop, result, hloop, hbody, hvalues⟩ :=
      ih hrest (headermap.append headerKey headerValue) hnext (Nat.lt_of_succ_lt_succ hfuel)
    refine ⟨stop, result, ?_, hbody, fun name => ?_⟩
    · rw [loop_succ, headerRound_eq hvec hlt headermap hline, if_neg (by simp),
        parseHeader_headerLine hcolon hkey hvalue]
      exact hloop
    · rw [hvalues name, HeaderMap.getAll_append]
      by_cases hname : headerKey = name
      · subst hname
        rw [if_pos rfl, List.filter_cons_of_pos (by simp [hkeyBytes]), List.map_append, List.map_cons,
          List.map_nil, hvalueBytes, List.map_cons, List.append_assoc]
        rfl
      · have hne : key ≠ types.nameBytes name := fun heq =>
          hname (hlawful.nameBytes_injective (hkeyBytes.trans heq))
        rw [if_neg hname, List.filter_cons_of_neg (by simp [hne])]

theorem fromRaw_returns (itemName : String) (itemKey : Nat) :
    Returns (fromRaw types rawRequest itemName itemKey) := by
  have hindex : (rawRequest.findIdx? (· = newline)).getD rawRequest.length ≤ rawRequest.length := by
    cases hfind : rawRequest.findIdx? (· = newline) with
    | none => exact Nat.le_refl _
    | some i => exact Nat.le_of_lt (List.findIdx?_eq_some_iff_findIdx_eq.mp hfind).1
  have hadd : (rawRequest.findIdx? (· = newline)).getD rawRequest.length + 1 < Usize.limit := by
    unfold Usize.isizeMax Usize.limit at *
    omega
  rw [fromRaw, Slices.range_eq_ok (Nat.zero_le _) hindex, ok_bind]
  refine (returns_bind _ _).mpr ⟨parseLine_returns _, fun requestLine _ => ?_⟩
  refine (returns_bind _ _).mpr ⟨parseMethod_returns _, fun method _ => ?_⟩
  refine (returns_bind _ _).mpr ⟨okOr_returns _ _, fun uri _ => ?_⟩
  refine (returns_bind _ _).mpr ⟨parseVersion_returns _, fun version _ => ?_⟩
  rw [Usize.add_eq_ok hadd, ok_bind]
  refine (returns_bind _ _).mpr ⟨loop_returns hvec _ _, fun r _ => ?_⟩
  obtain ⟨stop, headermap⟩ := r
  simp only [bodyAt_eq, ok_bind]
  exact returns_ok _

end Loop

/-! ## The round trip -/

theorem length_le_flatMap (headers : List (List UInt8 × List UInt8)) :
    headers.length ≤ (headers.flatMap headerLine).length := by
  induction headers with
  | nil => exact Nat.zero_le _
  | cons header headers ih =>
    rw [List.flatMap_cons, List.length_append, List.length_cons, headerLine, List.length_append]
    simp only [List.length_singleton]
    omega

theorem isWord_method (method : HttpMethod) : IsWord method.text := by
  cases method <;> exact isWord_of_any (by decide) (by decide)

theorem isWord_version (version : HttpVersion) : IsWord version.text := by
  cases version <;> exact isWord_of_any (by decide) (by decide)

section RoundTrip

variable {uri : String} (huri : IsWord uri) (method : HttpMethod) (version : HttpVersion)
include huri

theorem splitAsciiWhitespace_requestLine :
    splitAsciiWhitespace (requestLine method uri version) =
      [method.text, uri, version.text] := by
  have hassoc : requestLine method uri version =
      method.text ++ " " ++ (uri ++ " " ++ version.text) := by
    simp only [requestLine, String.append_assoc]
  rw [hassoc, splitAsciiWhitespace_append (isWord_method method), splitAsciiWhitespace_append huri,
    splitAsciiWhitespace_word (isWord_version version)]

theorem newline_not_mem_requestLine :
    newline ∉ utf8Bytes (requestLine method uri version) := by
  intro hmem
  obtain ⟨c, hc, hvalue⟩ := exists_of_mem_utf8Bytes hmem (by decide)
  have hbreak : c = '\n' := Char.ext (UInt32.toNat_inj.mp hvalue)
  subst hbreak
  simp [requestLine, (isWord_method method).newline_not_mem, huri.newline_not_mem,
    (isWord_version version).newline_not_mem] at hc

theorem fromRaw_render {types : HeaderTypes} (hlawful : types.Lawful)
    {headers : List (List UInt8 × List UInt8)} (hvalid : ∀ header ∈ headers, types.ValidHeader header)
    {body : List UInt8} (hvec : (render method uri version headers body).length ≤ Usize.isizeMax)
    (itemName : String) (itemKey : Nat) :
    ∃ headermap, fromRaw types (render method uri version headers body) itemName itemKey =
        .ok { itemName, itemKey, method, uri, version, headermap, body } ∧
      ∀ name, (headermap.getAll name).map types.valueBytes =
        (headers.filter fun header => header.1 = types.nameBytes name).map Prod.snd := by
  have hindex := findIdx?_append_cons (newline_not_mem_requestLine huri method version)
    (headers.flatMap headerLine ++ newline :: body)
  have hlength : (utf8Bytes (requestLine method uri version)).length + 1 ≤
      (render method uri version headers body).length := by
    rw [render, List.length_append, List.length_cons]
    omega
  have hadd : (utf8Bytes (requestLine method uri version)).length + 1 < Usize.limit := by
    unfold Usize.isizeMax Usize.limit at *
    omega
  have hdrop : (render method uri version headers body).drop
      ((utf8Bytes (requestLine method uri version)).length + 1) =
        headers.flatMap headerLine ++ newline :: body := by
    rw [render, ← List.drop_drop, List.drop_left]
    rfl
  have hfuel : headers.length < (render method uri version headers body).length + 1 := by
    have hle := length_le_flatMap headers
    have hrest := congrArg List.length hdrop
    rw [List.length_drop, List.length_append] at hrest
    omega
  obtain ⟨stop, headermap, hloop, hbody, hvalues⟩ :=
    loop_headers hvec hlawful headers hvalid [] hdrop hfuel
  refine ⟨headermap, ?_, fun name => ?_⟩
  · have hline : parseLine (utf8Bytes (requestLine method uri version)) =
        .ok (requestLine method uri version) := by
      rw [parseLine, fromUTF8?_eq_some_iff.mpr rfl]
      rfl
    have htake : (render method uri version headers body).take
        (utf8Bytes (requestLine method uri version)).length =
          utf8Bytes (requestLine method uri version) := List.take_left
    have hfind : (render method uri version headers body).findIdx? (· = newline) =
        some (utf8Bytes (requestLine method uri version)).length := hindex
    rw [fromRaw, hfind, Option.getD_some, Slices.range_eq_ok (Nat.zero_le _) (by omega), ok_bind,
      List.drop_zero, Nat.sub_zero, htake, hline, ok_bind, splitAsciiWhitespace_requestLine huri]
    change (parseMethod (some method.text) >>= _) = _
    rw [parseMethod_text, ok_bind]
    change (okOr _ (some uri) >>= _) = _
    rw [okOr_some, ok_bind]
    change (parseVersion (some version.text) >>= _) = _
    rw [parseVersion_text, ok_bind, Usize.add_eq_ok hadd, ok_bind, hloop, ok_bind]
    simp only [bodyAt_eq, hbody, ok_bind]
    rfl
  · rw [hvalues name]
    rfl

end RoundTrip

/-- Every byte vector is parsed without a panic, and a request in writing is parsed for what it is. -/
theorem fromRaw_total_and_undoes_render (types : HeaderTypes) :
    (∀ rawRequest itemName itemKey, rawRequest.length ≤ Usize.isizeMax →
      Returns (fromRaw types rawRequest itemName itemKey)) ∧
    (types.Lawful → ∀ method uri version headers body itemName itemKey, IsWord uri →
      (∀ header ∈ headers, types.ValidHeader header) →
      (render method uri version headers body).length ≤ Usize.isizeMax →
      ∃ headermap, fromRaw types (render method uri version headers body) itemName itemKey =
          .ok { itemName, itemKey, method, uri, version, headermap, body } ∧
        ∀ name, (headermap.getAll name).map types.valueBytes =
          (headers.filter fun header => header.1 = types.nameBytes name).map Prod.snd) :=
  ⟨fun _ itemName itemKey hvec => fromRaw_returns hvec itemName itemKey,
    fun hlawful method _ version _ _ itemName itemKey huri hvalid hvec =>
      fromRaw_render huri method version hlawful hvalid hvec itemName itemKey⟩

end HttpRequest

/-- Headers as tokens in lower case and fields of visible bytes. -/
def HeaderTypes.ascii : HeaderTypes where
  Name := List UInt8
  Value := List UInt8
  nameDecEq := inferInstance
  nameFromBytes bytes :=
    if bytes.isEmpty || !bytes.all isTokenByte then none else some (bytes.map lowerByte)
  nameBytes := id
  valueFromBytes bytes := if bytes.all isFieldByte then some bytes else none
  valueBytes := id

theorem HeaderTypes.ascii_name {bytes name : List UInt8} (h : ascii.nameFromBytes bytes = some name) :
    bytes ≠ [] ∧ (∀ b ∈ bytes, isTokenByte b) ∧ name = bytes.map lowerByte := by
  change (if bytes.isEmpty || !bytes.all isTokenByte then none else some (bytes.map lowerByte)) =
    some name at h
  rw [Option.ite_none_left_eq_some, Bool.or_eq_true, not_or, List.isEmpty_iff, Bool.not_eq_true',
    Bool.not_eq_false, Option.some.injEq] at h
  exact ⟨h.1.1, List.all_eq_true.mp h.1.2, h.2.symm⟩

theorem HeaderTypes.ascii_value {bytes value : List UInt8} (h : ascii.valueFromBytes bytes = some value) :
    (∀ b ∈ bytes, isFieldByte b) ∧ value = bytes := by
  change (if bytes.all isFieldByte then some bytes else none) = some value at h
  rw [Option.ite_none_right_eq_some, Option.some.injEq] at h
  exact ⟨List.all_eq_true.mp h.1, h.2.symm⟩

theorem HeaderTypes.ascii_lawful : HeaderTypes.ascii.Lawful where
  name_token _ _ h := ⟨(ascii_name h).1, (ascii_name h).2.1⟩
  name_lower _ _ h := (ascii_name h).2.2
  nameBytes_injective := Function.injective_id
  value_field _ _ h := (ascii_value h).1
  value_bytes _ _ h := (ascii_value h).2

/-- Two values for one name, and a body that looks like a header and is no text. -/
theorem postRequest_parsed : ∃ headermap, HttpRequest.fromRaw .ascii
    (HttpRequest.render .post "/a" .http11 [([97], [49]), ([98], []), ([97], [50])] [97, 58, 49, 10, 10, 255])
      "item" 7 = .ok ⟨"item", 7, .post, "/a", .http11, headermap, [97, 58, 49, 10, 10, 255]⟩ ∧
    headermap.getAll [97] = [[49], [50]] := by
  obtain ⟨headermap, hparsed, hvalues⟩ :=
    (HttpRequest.fromRaw_total_and_undoes_render .ascii).2 HeaderTypes.ascii_lawful .post "/a" .http11
      [([97], [49]), ([98], []), ([97], [50])] [97, 58, 49, 10, 10, 255] "item" 7
      (isWord_of_any (by decide) (by decide))
      (List.forall_mem_cons.mpr ⟨⟨rfl, rfl, rfl⟩, List.forall_mem_cons.mpr ⟨⟨rfl, rfl, rfl⟩,
        List.forall_mem_cons.mpr ⟨⟨rfl, rfl, rfl⟩, fun _ h => absurd h List.not_mem_nil⟩⟩⟩)
      (by decide)
  refine ⟨headermap, hparsed, ?_⟩
  have hget := hvalues ([97] : List UInt8)
  exact (List.map_id _).symm.trans hget

end Dandelion
