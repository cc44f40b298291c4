import Onisin.Lib.Utf8
import Onisin.Mem.FormatLaws

/-!
Bytes as text, with what is no UTF-8 replaced. Text in UTF-8 is read exactly.
-/

set_option autoImplicit false

namespace Onisin.Mem
open Lib

def lossyText (bytes : List UInt8) : Text := (decodeUtf8 bytes).toList

theorem textBytes_ofList (t : Text) : textBytes (String.ofList t) = utf8 t := by
  have hencode : (String.ofList t).toByteArray = t.utf8Encode := by simp
  rw [textBytes, hencode, utf8Encode_eq]

theorem lossyText_utf8 (t : Text) : lossyText (utf8 t) = t := by
  rw [lossyText, ← textBytes_ofList, decodeUtf8_textBytes, String.toList_ofList]

end Onisin.Mem
