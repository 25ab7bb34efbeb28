import CsarCore.Framework.HttpResponse

/-!
# The access log

From `httpmiddleware/middleware.go`: `responseRecorder` and `AccessLog`. The writer
behind the recorder is that of `net/http`, which can flush and read from a source.
-/

namespace Csar.Impl.HTTPMiddleware

open Http

structure ResponseRecorder where
  responseWriter : Sent
  statusCode : StatusCode
  written : Bool

def wrapRecorder (w : Sent) : ResponseRecorder := ⟨w, .ok, false⟩

namespace ResponseRecorder

def writeHeader (r : ResponseRecorder) (code : StatusCode) : ResponseRecorder :=
  let r := if r.written then r else { r with statusCode := code, written := true }
  { r with responseWriter := r.responseWriter.writeHeader code }

def write (r : ResponseRecorder) (data : Bytes) : ResponseRecorder :=
  { r with written := true, responseWriter := r.responseWriter.write data }

def flush (r : ResponseRecorder) : ResponseRecorder := { r with responseWriter := r.responseWriter.flush }

def readFrom (r : ResponseRecorder) (src : Bytes) : ResponseRecorder :=
  { r with written := true, responseWriter := r.responseWriter.readFrom src }

def call (r : ResponseRecorder) : ResponseCall → ResponseRecorder
  | .writeHeader code => r.writeHeader code
  | .write data => r.write data
  | .flush => r.flush
  | .readFrom src => r.readFrom src

end ResponseRecorder

def record (handler : List ResponseCall) : ResponseRecorder := handler.foldl ResponseRecorder.call (wrapRecorder {})

structure LoggedRequest where
  method : Bytes
  path : Bytes
  requestID : Bytes

structure AccessEntry where
  method : Bytes
  path : Bytes
  status : StatusCode
  duration : Int
  requestID : Bytes

/-- What is sent, and the line that is logged. `start` and `stop` are readings of the clock. -/
def accessLog (r : LoggedRequest) (start stop : Int) (handler : List ResponseCall) : Sent × AccessEntry :=
  let rec_ := record handler
  (rec_.responseWriter, ⟨r.method, r.path, rec_.statusCode, stop - start, r.requestID⟩)

end Csar.Impl.HTTPMiddleware
