import Dandelion.FunctionMap
import Dandelion.HttpRequests
import Dandelion.InputTransfers

/-!
# System functions

What the task of a system function does: it parses a request from the bytes of each item of its
input, has the requests answered, and writes the answers to the context that it returns. What
answers the requests is outside; the answers come in the order of the requests, whichever comes
first.
-/

namespace Dandelion

open Outcome AsciiText Bson

/-! ## Memcached requests -/

inductive MemcachedMethod where
  | set
  | get
deriving DecidableEq, Repr

structure MemcachedRequest where
  itemName : String
  itemKey : Nat
  method : MemcachedMethod
  uri : String
  memcachedIdentifier : String
  body : List UInt8
deriving DecidableEq, Repr

namespace MemcachedRequest

open HttpRequest (newline parseLine okOr bodyAt)

def parseMethod : Option String → DandelionResult MemcachedMethod
  | some method =>
    if method = "MEMCACHED_GET" then pure .get
    else if method = "MEMCACHED_SET" then pure .set
    else fail (.invalidSystemFuncArg ("Unsupported Method: " ++ method))
  | none => fail (.malformedSystemFuncArg "No method found")

def fromRaw (rawRequest : List UInt8) (itemName : String) (itemKey : Nat) :
    DandelionResult MemcachedRequest := do
  let requestIndex := (rawRequest.findIdx? (· = newline)).getD rawRequest.length
  let line ← Slices.range rawRequest 0 requestIndex
  let requestLine ← parseLine line
  let items := splitAsciiWhitespace requestLine
  let method ← parseMethod items[0]?
  let uri ← okOr "No uri in request" items[1]?
  let memcachedIdentifier ← okOr "No memcached identifier found" items[2]?
  let bodyIndex ← Usize.add .checked requestIndex 1
  let body ← bodyAt rawRequest bodyIndex
  pure { itemName, itemKey, method, uri, memcachedIdentifier, body }

end MemcachedRequest

def MemcachedMethod.text : MemcachedMethod → String
  | .get => "MEMCACHED_GET"
  | .set => "MEMCACHED_SET"

namespace MemcachedRequest

open HttpRequest (newline parseLine parseLine_returns okOr okOr_some okOr_returns bodyAt bodyAt_eq
  findIdx?_append_cons)

/-- The first line, without its line break. -/
def requestLine (method : MemcachedMethod) (uri memcachedIdentifier : String) : String :=
  method.text ++ " " ++ uri ++ " " ++ memcachedIdentifier

/-- The input of the memcached function for a request. -/
def render (method : MemcachedMethod) (uri memcachedIdentifier : String) (body : List UInt8) :
    List UInt8 :=
  utf8Bytes (requestLine method uri memcachedIdentifier) ++ newline :: body

theorem parseMethod_text (method : MemcachedMethod) : parseMethod (some method.text) = .ok method := by
  cases method <;> rfl

theorem parseMethod_returns (method : Option String) : Returns (parseMethod method) := by
  fun_cases parseMethod method <;> simp

theorem isWord_method (method : MemcachedMethod) : IsWord method.text := by
  cases method <;> exact isWord_of_any (by decide) (by decide)

theorem fromRaw_returns {rawRequest : List UInt8} (hvec : rawRequest.length ≤ Usize.isizeMax)
    (itemName : String) (itemKey : Nat) : Returns (fromRaw rawRequest itemName itemKey) := by
  have hindex : (rawRequest.findIdx? (· = newline)).getD rawRequest.length ≤ rawRequest.length := by
    cases hfind : rawRequest.findIdx? (· = newline) with
    | none => exact Nat.le_refl _
    | some i => exact Nat.le_of_lt (List.findIdx?_eq_some_iff_findIdx_eq.mp hfind).1
  have hadd : (rawRequest.findIdx? (· = newline)).getD rawRequest.length + 1 < Usize.limit := by
    unfold Usize.isizeMax Usize.limit at *
    omega
  rw [fromRaw, Slices.range_eq_ok (Nat.zero_le _) hindex, ok_bind]
  refine (returns_bind _ _).mpr ⟨parseLine_returns _, fun requestLine _ => ?_⟩
  refine (returns_bind _ _).mpr ⟨parseMethod_returns _, fun method _ => ?_⟩
  refine (returns_bind _ _).mpr ⟨okOr_returns _ _, fun uri _ => ?_⟩
  refine (returns_bind _ _).mpr ⟨okOr_returns _ _, fun memcachedIdentifier _ => ?_⟩
  simp [Usize.add_eq_ok hadd, bodyAt_eq]

section RoundTrip

variable {uri memcachedIdentifier : String} (huri : IsWord uri) (hidentifier : IsWord memcachedIdentifier)
  (method : MemcachedMethod)
include huri hidentifier

theorem splitAsciiWhitespace_requestLine :
    splitAsciiWhitespace (requestLine method uri memcachedIdentifier) =
      [method.text, uri, memcachedIdentifier] := by
  have hassoc : requestLine method uri memcachedIdentifier =
      method.text ++ " " ++ (uri ++ " " ++ memcachedIdentifier) := by
    simp only [requestLine, String.append_assoc]
  rw [hassoc, splitAsciiWhitespace_append (isWord_method method), splitAsciiWhitespace_append huri,
    splitAsciiWhitespace_word hidentifier]

theorem newline_not_mem_requestLine :
    newline ∉ utf8Bytes (requestLine method uri memcachedIdentifier) := by
  intro hmem
  obtain ⟨c, hc, hvalue⟩ := exists_of_mem_utf8Bytes hmem (by decide)
  have hbreak : c = '\n' := Char.ext (UInt32.toNat_inj.mp hvalue)
  subst hbreak
  simp [requestLine, (isWord_method method).newline_not_mem, huri.newline_not_mem,
    hidentifier.newline_not_mem] at hc

/-- A request in writing is parsed for what it is, whatever its body. -/
theorem fromRaw_render {body : List UInt8}
    (hvec : (render method uri memcachedIdentifier body).length ≤ Usize.isizeMax)
    (itemName : String) (itemKey : Nat) :
    fromRaw (render method uri memcachedIdentifier body) itemName itemKey =
      .ok { itemName, itemKey, method, uri, memcachedIdentifier, body } := by
  have hfind : (render method uri memcachedIdentifier body).findIdx? (· = newline) =
      some (utf8Bytes (requestLine method uri memcachedIdentifier)).length :=
    findIdx?_append_cons (newline_not_mem_requestLine huri hidentifier method) body
  have hlength : (utf8Bytes (requestLine method uri memcachedIdentifier)).length + 1 ≤
      (render method uri memcachedIdentifier body).length := by
    rw [render, List.length_append, List.length_cons]
    omega
  have hadd : (utf8Bytes (requestLine method uri memcachedIdentifier)).length + 1 < Usize.limit := by
    unfold Usize.isizeMax Usize.limit at *
    omega
  have htake : (render method uri memcachedIdentifier body).take
      (utf8Bytes (requestLine method uri memcachedIdentifier)).length =
        utf8Bytes (requestLine method uri memcachedIdentifier) := List.take_left
  have hdrop : (render method uri memcachedIdentifier body).drop
      ((utf8Bytes (requestLine method uri memcachedIdentifier)).length + 1) = body := by
    rw [render, ← List.drop_drop, List.drop_left]
    rfl
  have hline : parseLine (utf8Bytes (requestLine method uri memcachedIdentifier)) =
      .ok (requestLine method uri memcachedIdentifier) := by
    rw [parseLine, fromUTF8?_eq_some_iff.mpr rfl]
    rfl
  rw [fromRaw, hfind, Option.getD_some, Slices.range_eq_ok (Nat.zero_le _) (by omega), ok_bind,
    List.drop_zero, Nat.sub_zero, htake, hline, ok_bind,
    splitAsciiWhitespace_requestLine huri hidentifier]
  change (parseMethod (some method.text) >>= _) = _
  rw [parseMethod_text, ok_bind]
  change (okOr _ (some uri) >>= _) = _
  rw [okOr_some, ok_bind]
  change (okOr _ (some memcachedIdentifier) >>= _) = _
  rw [okOr_some, ok_bind, Usize.add_eq_ok hadd, ok_bind, bodyAt_eq, hdrop]
  rfl

end RoundTrip

/-- No bytes make the parser panic, and a request in writing is parsed for what it is. -/
theorem parses_any_and_rendered (rawRequest : List UInt8) (itemName : String) (itemKey : Nat)
    (hvec : rawRequest.length ≤ Usize.isizeMax) :
    Returns (fromRaw rawRequest itemName itemKey) ∧
      ∀ method uri memcachedIdentifier body, IsWord uri → IsWord memcachedIdentifier →
        rawRequest = render method uri memcachedIdentifier body →
        fromRaw rawRequest itemName itemKey =
          .ok { itemName, itemKey, method, uri, memcachedIdentifier, body } := by
  refine ⟨fromRaw_returns hvec itemName itemKey, ?_⟩
  rintro method uri memcachedIdentifier body huri hidentifier rfl
  exact fromRaw_render huri hidentifier method hvec itemName itemKey

/-- A value with line breaks. -/
theorem setRequest_parsed : fromRaw (render .set "a:1" "k" [10, 255, 10]) "item" 7 =
    .ok ⟨"item", 7, .set, "a:1", "k", [10, 255, 10]⟩ :=
  (parses_any_and_rendered _ "item" 7 (by decide)).2 .set "a:1" "k" [10, 255, 10]
    (isWord_of_any (by decide) (by decide)) (isWord_of_any (by decide) (by decide)) rfl

end MemcachedRequest

/-! ## Parsing the items of a set -/

/-- The item that an element of a set stands for. -/
def Context.bufferAt (context : Context) (setIndex itemIndex : Nat) : DandelionResult DataItem :=
  match context.content[setIndex]? with
  | some (some set) =>
    match set.buffers[itemIndex]? with
    | some item => pure item
    | none => crash
  | _ => crash

/-- `context.read` into a buffer of zeros. -/
def Context.readItem (context : Context) (position : Position) : DandelionResult (List UInt8) :=
  -- `with_capacity` refuses more bytes than fit into a vector
  if Usize.isizeMax < position.size then crash
  else
    match context.context.read position.offset (List.replicate position.size 0) with
    | (bytes, .ok ()) => .ok bytes
    | (_, .error stop) => .error stop

section Requests

variable {Request : Type} (fromRaw : List UInt8 → String → Nat → DandelionResult Request)

def parseRequest : Nat × Nat × Context → DandelionResult Request
  | (setIndex, itemIndex, context) => do
    let dataItem ← context.bufferAt setIndex itemIndex
    let requestBuffer ← context.readItem dataItem.data
    fromRaw requestBuffer dataItem.ident dataItem.key

def parseRequests (compositionSet : CompositionSet Context) : DandelionResult (List Request) :=
  (transferIterator compositionSet).mapM (parseRequest fromRaw)

end Requests

/-! ## Answers -/

/-- What an HTTP client has received. The values of headers need not be texts. -/
structure ClientResponse where
  version : String
  status : String
  canonicalReason : Option String
  headers : List (String × Option String)
  bytes : List UInt8

def headerLines : List (String × Option String) → DandelionResult String
  | [] => pure ""
  | (key, some value) :: headers => do
    let lines ← headerLines headers
    pure (key ++ ":" ++ value ++ "\n" ++ lines)
  | (_, none) :: _ => crash

/-- `str::parse::<usize>` -/
def parseUsize (text : String) : Option Nat :=
  let digits := match text.toList with
    | '+' :: digits => digits
    | digits => digits
  if digits.isEmpty || !digits.all Char.isDigit then none
  else
    let value := digits.foldl (fun value digit => value * 10 + (digit.toNat - 48)) 0
    if value < Usize.limit then some value else none

/-- The length that the first header of that name announces, if it is one. -/
def contentLength (headers : List (String × Option String)) : Option Nat :=
  ((headers.find? (·.1 = "content-length")).bind Prod.snd).bind parseUsize

/-- What `http_request` makes of the response, unless its body has not the length it should have. -/
def httpResponse (itemName : String) (itemKey : Nat) (response : ClientResponse) :
    DandelionResult (Option ResponseInformation) := do
  let statusLine := response.version ++ " " ++ response.status ++ " " ++
    response.canonicalReason.getD "" ++ "\n"
  let lines ← headerLines response.headers
  let preamble := statusLine ++ lines ++ "\n"
  match contentLength response.headers with
  | some contentLen =>
    if contentLen ≠ response.bytes.length then pure none
    else pure (some { itemName, itemKey, preamble := utf8Bytes preamble, body := response.bytes })
  | none => pure (some { itemName, itemKey, preamble := utf8Bytes preamble, body := response.bytes })

/-- What a memcached server does with a request that it does not refuse. -/
inductive MemcachedAnswer where
  | stored
  | found (value : List UInt8)
  | absent

def memcachedResponse (itemName : String) (itemKey : Nat) (method : MemcachedMethod)
    (answer : MemcachedAnswer) : Option ResponseInformation :=
  match method, answer with
  | .set, .stored => some { itemName, itemKey, preamble := utf8Bytes ("SUCCESS" ++ "\n"), body := [0] }
  | .get, .found value => some { itemName, itemKey, preamble := utf8Bytes ("SUCCESS" ++ "\n"), body := value }
  | .get, .absent => some { itemName, itemKey, preamble := utf8Bytes ("ABSENT" ++ "\n"), body := [0] }
  | _, _ => none

/-- What may be answered outside. -/
structure Remote (types : HeaderTypes) where
  client : HttpRequest types → ClientResponse → Prop
  server : MemcachedRequest → MemcachedAnswer → Prop

variable {types : HeaderTypes} (remote : Remote types)

def HttpAnswered (request : HttpRequest types) (info : ResponseInformation) : Prop :=
  ∃ response, remote.client request response ∧
    httpResponse request.itemName request.itemKey response = .ok (some info)

def MemcachedAnswered (request : MemcachedRequest) (info : ResponseInformation) : Prop :=
  ∃ answer, remote.server request answer ∧
    memcachedResponse request.itemName request.itemKey request.method answer = some info

/-! ## The tasks -/

section Tasks

variable {Request : Type} (fromRaw : List UInt8 → String → Nat → DandelionResult Request)
  (answers : Request → ResponseInformation → Prop) (contextSize : Nat) (outputSetNames : List String)
  (compositionSet : CompositionSet Context)

/-- The results of a task that has its requests answered. One of them that fails is the result, with
its error; otherwise all answers are written in the order of the requests. -/
inductive RunRequests : DandelionResult Context → Prop
  | malformed (stop : Stop DandelionError) (hparse : parseRequests fromRaw compositionSet = .error stop) :
      RunRequests (.error stop)
  | refused (requests : List Request) (request : Request) (error : DandelionError)
      (hparse : parseRequests fromRaw compositionSet = .ok requests) (hmem : request ∈ requests) :
      RunRequests (fail error)
  | answered (requests : List Request) (responses : List ResponseInformation)
      (hparse : parseRequests fromRaw compositionSet = .ok requests)
      (hanswers : List.Forall₂ answers requests responses) :
      RunRequests (responsesWrite contextSize outputSetNames responses)

end Tasks

/-- `run_http_request` and `run_memcached_request`. -/
def RunSystemFunction (function : Registry.SystemFunction) (contextSize : Nat)
    (outputSetNames : List String) (compositionSet : CompositionSet Context) :
    DandelionResult Context → Prop :=
  match function with
  | .http => RunRequests (HttpRequest.fromRaw types) (HttpAnswered remote) contextSize outputSetNames
      compositionSet
  | .memcached => RunRequests MemcachedRequest.fromRaw (MemcachedAnswered remote) contextSize
      outputSetNames compositionSet

/-! ## Every item is answered -/

theorem HttpRequest.fromRaw_item {rawRequest : List UInt8} {itemName : String} {itemKey : Nat}
    {request : HttpRequest types} (h : HttpRequest.fromRaw types rawRequest itemName itemKey = .ok request) :
    request.itemName = itemName ∧ request.itemKey = itemKey := by
  simp only [HttpRequest.fromRaw, bind_eq_ok_iff] at h
  obtain ⟨line, -, requestLine, -, method, -, uri, -, version, -, h⟩ := h
  obtain ⟨headerIndex, -, headers, -, body, -, h⟩ := h
  cases h
  exact ⟨rfl, rfl⟩

theorem MemcachedRequest.fromRaw_item {rawRequest : List UInt8} {itemName : String} {itemKey : Nat}
    {request : MemcachedRequest} (h : MemcachedRequest.fromRaw rawRequest itemName itemKey = .ok request) :
    request.itemName = itemName ∧ request.itemKey = itemKey := by
  simp only [MemcachedRequest.fromRaw, bind_eq_ok_iff] at h
  obtain ⟨line, -, requestLine, -, method, -, uri, -, identifier, -, bodyIndex, -, body, -, h⟩ := h
  cases h
  exact ⟨rfl, rfl⟩

theorem utf8Bytes_append_ne_nil (text : String) : utf8Bytes (text ++ "\n") ≠ [] := by
  rw [utf8Bytes_append]
  exact List.append_ne_nil_of_right_ne_nil _ (by decide)

/-- The answer to a request has its name and its key, and a preamble. -/
structure AnswerTo (itemName : String) (itemKey : Nat) (info : ResponseInformation) : Prop where
  name : info.itemName = itemName
  key : info.itemKey = itemKey
  preamble : info.preamble ≠ []

theorem httpResponse_answerTo {itemName : String} {itemKey : Nat} {response : ClientResponse}
    {info : ResponseInformation} (h : httpResponse itemName itemKey response = .ok (some info)) :
    AnswerTo itemName itemKey info := by
  simp only [httpResponse, bind_eq_ok_iff] at h
  obtain ⟨lines, -, h⟩ := h
  split at h
  · split at h
    · cases h
    · cases h
      exact ⟨rfl, rfl, utf8Bytes_append_ne_nil _⟩
  · cases h
    exact ⟨rfl, rfl, utf8Bytes_append_ne_nil _⟩

theorem memcachedResponse_answerTo {itemName : String} {itemKey : Nat} {method : MemcachedMethod}
    {answer : MemcachedAnswer} {info : ResponseInformation}
    (h : memcachedResponse itemName itemKey method answer = some info) : AnswerTo itemName itemKey info := by
  cases method <;> cases answer <;> cases h <;> exact ⟨rfl, rfl, utf8Bytes_append_ne_nil _⟩

section Tasks

variable {Request : Type} {fromRaw : List UInt8 → String → Nat → DandelionResult Request}
  {answers : Request → ResponseInformation → Prop} {contextSize : Nat} {outputSetNames : List String}
  {compositionSet : CompositionSet Context} {context : Context}

/-- The answer to the request in the bytes of an item. -/
inductive AnswersItem (fromRaw : List UInt8 → String → Nat → DandelionResult Request)
    (answers : Request → ResponseInformation → Prop) (info : ResponseInformation) :
    Nat × Nat × Context → Prop
  | mk {setIndex itemIndex : Nat} {source : Context} {dataItem : DataItem} {requestBuffer : List UInt8}
      {request : Request} (hitem : source.bufferAt setIndex itemIndex = .ok dataItem)
      (hread : source.readItem dataItem.data = .ok requestBuffer)
      (hrequest : fromRaw requestBuffer dataItem.ident dataItem.key = .ok request)
      (hanswers : answers request info) (hanswerTo : AnswerTo dataItem.ident dataItem.key info) :
      AnswersItem fromRaw answers info (setIndex, itemIndex, source)

theorem answersItem_of_parseRequests
    (hanswerTo : ∀ requestBuffer itemName itemKey request info,
      fromRaw requestBuffer itemName itemKey = .ok request → answers request info →
        AnswerTo itemName itemKey info)
    {calls : List (Nat × Nat × Context)} {requests : List Request} {responses : List ResponseInformation}
    (hparse : calls.mapM (parseRequest fromRaw) = .ok requests)
    (hanswers : List.Forall₂ answers requests responses) :
    List.Forall₂ (fun call info => AnswersItem fromRaw answers info call) calls responses := by
  induction calls generalizing requests responses with
  | nil =>
    cases hparse
    cases hanswers
    exact .nil
  | cons call calls ih =>
    obtain ⟨setIndex, itemIndex, source⟩ := call
    rw [List.mapM_cons] at hparse
    obtain ⟨request, hfirst, hparse⟩ := (bind_eq_ok_iff _ _ _).mp hparse
    obtain ⟨rest, hrest, hparse⟩ := (bind_eq_ok_iff _ _ _).mp hparse
    cases hparse
    cases hanswers with
    | cons hanswer hanswers =>
      obtain ⟨dataItem, hitem, hfirst⟩ := (bind_eq_ok_iff _ _ _).mp hfirst
      obtain ⟨requestBuffer, hread, hrequest⟩ := (bind_eq_ok_iff _ _ _).mp hfirst
      exact .cons ⟨hitem, hread, hrequest, hanswer, hanswerTo _ _ _ _ _ hrequest hanswer⟩
        (ih hrest hanswers)

theorem preamble_ne_nil_of_answers {calls : List (Nat × Nat × Context)} {infos : List ResponseInformation}
    (h : List.Forall₂ (fun call info => AnswersItem fromRaw answers info call) calls infos) :
    ∀ info ∈ infos, info.preamble ≠ [] := by
  induction h with
  | nil => simp
  | cons hfirst _ ih =>
    obtain ⟨-, -, -, -, hanswerTo⟩ := hfirst
    exact List.forall_mem_cons.mpr ⟨hanswerTo.preamble, ih⟩

/-- What an output context has of the items of the input: the sets that were asked for have an item
for each of them, with its name and key, that arrives as the answer to its request. -/
structure AnswersAll (fromRaw : List UInt8 → String → Nat → DandelionResult Request)
    (answers : Request → ResponseInformation → Prop) (outputSetNames : List String)
    (calls : List (Nat × Nat × Context)) (context : Context) : Prop where
  responses : "response" ∈ outputSetNames → ∃ infos items,
    context.content[0]? = some (some ⟨"response", items⟩) ∧
      List.Forall₂ (fun call info => AnswersItem fromRaw answers info call) calls infos ∧
      List.Forall₂ (fun info item => Delivers context (info.preamble ++ info.body) info item) infos items
  bodies : "body" ∈ outputSetNames → ∃ infos items,
    context.content[1]? = some (some ⟨"body", items⟩) ∧
      List.Forall₂ (fun call info => AnswersItem fromRaw answers info call) calls infos ∧
      List.Forall₂ (fun info item => Delivers context info.body info item) infos items

theorem RunRequests.answersAll (hlimit : contextSize + 1 < Usize.limit)
    (hanswerTo : ∀ requestBuffer itemName itemKey request info,
      fromRaw requestBuffer itemName itemKey = .ok request → answers request info →
        AnswerTo itemName itemKey info)
    (h : RunRequests fromRaw answers contextSize outputSetNames compositionSet (.ok context)) :
    AnswersAll fromRaw answers outputSetNames (transferIterator compositionSet) context := by
  generalize hresult : (.ok context : DandelionResult Context) = result at h
  cases h with
  | malformed stop hparse => cases hresult
  | refused requests request error hparse hmem => cases hresult
  | answered requests responses hparse hanswers =>
    have hall := answersItem_of_parseRequests hanswerTo hparse hanswers
    have hpreamble := preamble_ne_nil_of_answers hall
    by_cases hnames : outputSetNames = []
    · rw [hnames]
      exact ⟨fun hmem => absurd hmem List.not_mem_nil, fun hmem => absurd hmem List.not_mem_nil⟩
    · have hfits := responsesFit_of_responsesWrite hlimit hpreamble hnames hresult.symm
      obtain ⟨context', system, items, bodyItems, stop, hok, hcontext, hitems, hbodies⟩ :=
        responsesWrite_collected hlimit hpreamble hnames hfits
      obtain rfl : context = context' := Except.ok.inj (hresult.trans hok)
      refine ⟨fun hmem => ⟨responses, items, ?_, hall, hitems.imp fun info item h => ?_⟩,
        fun hmem => ⟨responses, bodyItems, ?_, hall, hbodies.imp fun info item h => ?_⟩⟩
      · rw [hcontext.content_eq, addItems_outputSet hmem]
        rfl
      · have hdelivers := h.delivers hcontext hlimit
        rwa [flatten_responsePieces] at hdelivers
      · rw [hcontext.content_eq, addItems_outputSet hmem]
        rfl
      · have hdelivers := h.delivers hcontext hlimit
        rwa [flatten_bodyPieces] at hdelivers

end Tasks

/-- The items that a call of a system function returns are the answers to its requests. -/
def AnsweredBy (function : Registry.SystemFunction) (outputSetNames : List String)
    (calls : List (Nat × Nat × Context)) (context : Context) : Prop :=
  match function with
  | .http => AnswersAll (HttpRequest.fromRaw types) (HttpAnswered remote) outputSetNames calls context
  | .memcached => AnswersAll MemcachedRequest.fromRaw (MemcachedAnswered remote) outputSetNames calls context

/-- Whatever the requests and in whichever order they are answered: a system function that returns a
context has one item for each item of its input in each output set that it was asked for, in their
order, with their names and keys, and each arrives as the answer to the request in the bytes of its
item. -/
theorem system_function_answers {function : Registry.SystemFunction} {contextSize : Nat}
    {outputSetNames : List String} {compositionSet : CompositionSet Context} {context : Context}
    (hlimit : contextSize + 1 < Usize.limit)
    (hrun : RunSystemFunction remote function contextSize outputSetNames compositionSet (.ok context)) :
    AnsweredBy remote function outputSetNames (transferIterator compositionSet) context := by
  cases function with
  | http =>
    refine RunRequests.answersAll hlimit (fun _ _ _ request info hrequest hanswers => ?_) hrun
    obtain ⟨response, -, hinfo⟩ := hanswers
    obtain ⟨rfl, rfl⟩ := HttpRequest.fromRaw_item hrequest
    exact httpResponse_answerTo hinfo
  | memcached =>
    refine RunRequests.answersAll hlimit (fun _ _ _ request info hrequest hanswers => ?_) hrun
    obtain ⟨answer, -, hinfo⟩ := hanswers
    obtain ⟨rfl, rfl⟩ := MemcachedRequest.fromRaw_item hrequest
    exact memcachedResponse_answerTo hinfo

/-- A request in writing in the bytes of an item is parsed for what it is. -/
theorem parseRequest_render {source : Context} {setIndex itemIndex itemKey : Nat} {itemName : String}
    {position : Position} {method : MemcachedMethod} {uri memcachedIdentifier : String} {body : List UInt8}
    (huri : IsWord uri) (hidentifier : IsWord memcachedIdentifier)
    (hvec : (MemcachedRequest.render method uri memcachedIdentifier body).length ≤ Usize.isizeMax)
    (hitem : source.bufferAt setIndex itemIndex = .ok ⟨itemName, position, itemKey⟩)
    (hread : source.readItem position = .ok (MemcachedRequest.render method uri memcachedIdentifier body)) :
    parseRequest MemcachedRequest.fromRaw (setIndex, itemIndex, source) =
      .ok ⟨itemName, itemKey, method, uri, memcachedIdentifier, body⟩ := by
  rw [parseRequest, hitem, ok_bind, hread, ok_bind]
  exact MemcachedRequest.fromRaw_render huri hidentifier method hvec itemName itemKey

section Example

/-- A memcached server that has one value and stores what it is given. -/
def oneValue : Remote .ascii where
  client _ _ := False
  server request answer := match request.method with
    | .get => request.memcachedIdentifier = "k" ∧ answer = .found [7]
    | .set => answer = .stored

def getRequest : List UInt8 := MemcachedRequest.render .get "a:1" "k" []

def storeRequest : List UInt8 := MemcachedRequest.render .set "a:1" "l" [10, 255]

/-- The context of a request for the value, and of one that stores another. -/
def requestsContext : Context :=
  { Context.new (.stored (.malloc (getRequest ++ storeRequest))) (getRequest ++ storeRequest).length with
    content := [some ⟨"request", [⟨"first", ⟨0, getRequest.length⟩, 3⟩,
      ⟨"second", ⟨getRequest.length, storeRequest.length⟩, 4⟩]⟩] }

def requestsSet : CompositionSet Context := ⟨[(3, 0, requestsContext), (4, 1, requestsContext)], 0, by simp⟩

theorem requests_parsed : parseRequests MemcachedRequest.fromRaw requestsSet =
    .ok [⟨"first", 3, .get, "a:1", "k", []⟩, ⟨"second", 4, .set, "a:1", "l", [10, 255]⟩] := by
  have hfirst : parseRequest MemcachedRequest.fromRaw (0, 0, requestsContext) =
      .ok ⟨"first", 3, .get, "a:1", "k", []⟩ :=
    parseRequest_render (isWord_of_any (by decide) (by decide)) (isWord_of_any (by decide) (by decide))
      (by decide) rfl rfl
  have hsecond : parseRequest MemcachedRequest.fromRaw (0, 1, requestsContext) =
      .ok ⟨"second", 4, .set, "a:1", "l", [10, 255]⟩ :=
    parseRequest_render (isWord_of_any (by decide) (by decide)) (isWord_of_any (by decide) (by decide))
      (by decide) rfl rfl
  change List.mapM _ [(0, 0, requestsContext), (0, 1, requestsContext)] = _
  rw [List.mapM_cons, hfirst, ok_bind, List.mapM_cons, hsecond]
  rfl

/-- The value of the server and what it says to the store come back under the names of their items. -/
theorem value_answered : ∃ context,
    RunSystemFunction oneValue .memcached 512 ["response", "body"] requestsSet (.ok context) ∧
    AnsweredBy oneValue .memcached ["response", "body"]
      [(0, 0, requestsContext), (0, 1, requestsContext)] context := by
  have hfits : ResponsesFit 512 0 [⟨"first", 3, utf8Bytes ("SUCCESS" ++ "\n"), [7]⟩,
      ⟨"second", 4, utf8Bytes ("SUCCESS" ++ "\n"), [0]⟩] := by decide
  obtain ⟨context, -, -, -, -, hok, -⟩ := responsesWrite_collected (by decide)
    (fun info hinfo => by
      rcases List.mem_pair.mp hinfo with rfl | rfl <;> exact utf8Bytes_append_ne_nil _)
    (List.cons_ne_nil "response" ["body"]) hfits
  have hrun : RunSystemFunction oneValue .memcached 512 ["response", "body"] requestsSet
      (.ok context) := by
    rw [← hok]
    exact .answered _ _ requests_parsed
      (.cons ⟨.found [7], ⟨rfl, rfl⟩, rfl⟩ (.cons ⟨.stored, rfl, rfl⟩ .nil))
  exact ⟨context, hrun, system_function_answers oneValue (by decide) hrun⟩

end Example

end Dandelion
