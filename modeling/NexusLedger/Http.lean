import NexusLedger.Node

/-! POST /transaction from the text on: `Node::startHttpServer` of `src/core/node.cpp`, once a request was read from
    the socket. `nlohmann::json::parse` is a parameter; where it throws there is no value. -/

namespace NexusLedger.Node

/-- `find`: what stands behind the first occurrence. -/
def behind (pattern : List Char) : List Char → Option (List Char)
  | [] => if pattern = [] then some [] else none
  | c :: cs => if pattern.isPrefixOf (c :: cs) then some ((c :: cs).drop pattern.length) else behind pattern cs

/-- `body.erase(std::remove_if(…))`. -/
def cleanBody (body : String) : String :=
  String.ofList (body.toList.filter fun c => !(c == '\r' || c == '\n' || c == ' ' || c == '\t'))

/-! ### Answers -/

def response (status : String) (contentLength : Nat) (text : String) : String :=
  "HTTP/1.1 " ++ status ++ "\r\nContent-Length: " ++ toString contentLength ++ "\r\n\r\n" ++ text

def okResponse : String := response "200 OK" 2 "OK"

def insufficientResponse : String := response "400 Bad Request" 11 "Insufficient"

def invalidJsonResponse : String := response "400 Bad Request" 15 "Invalid JSON"

def emptyBodyResponse : String := response "400 Bad Request" 15 "Empty Body"

def noBodyResponse : String := response "400 Bad Request" 15 "No Body"

def notFoundResponse : String := response "404 Not Found" 9 "Not Found"

/-! ### The handler -/

/-- The part that has the body. A read that fails is thrown to the same handler as a body that is no JSON. -/
def handleBody [Arithmetic] (parse : String → Option Json) (env : Env) (n : Node) (now : Int64) (body : String) :
    Node × String :=
  let body := cleanBody body
  if body = "" then (n, emptyBodyResponse)
  else
    match parse body with
    | none => (n, invalidJsonResponse)
    | some j =>
      match n.readHttpTransaction env now j with
      | .error _ => (n, invalidJsonResponse)
      | .ok tx =>
        match n.blockchain.addTransaction env tx now with
        | (true, blockchain) => ({ n with blockchain }, okResponse)
        | (false, blockchain) => ({ n with blockchain }, insufficientResponse)

/-- `buffer` is what was read; the request ends at its first NUL. -/
def handleRequest [Arithmetic] (parse : String → Option Json) (env : Env) (n : Node) (now : Int64) (buffer : String) :
    Node × String :=
  let request := (cText buffer).toList
  if (behind "POST /transaction".toList request).isSome then
    match behind "\r\n\r\n".toList request with
    | some body => n.handleBody parse env now (String.ofList body)
    | none => (n, noBodyResponse)
  else (n, notFoundResponse)

end NexusLedger.Node
