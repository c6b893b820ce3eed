/-
# Decoding an echo response

`smp_echo_rsp_proc` in `bootloader_samples/client_smp/smp_client_ble/src/main.c`.
The handler prints the value of the key `r`.  It does not look at the results of
`zcbor_map_start_decode` and `zcbor_map_end_decode`: an error that one of them
sets stands until the next call that is looked at.
-/

import NrfSamples.Smp.Reassembly

namespace NrfSamples
namespace Smp

open Cbor Zcbor

/-- Decoding an echo response. -/
def echoDecode (z : ZcborDecoder) : Proc z.State Unit := do
  let _ ← call z.mapStartDecode
  let key ← orReturn z z.tstrDecode "Decoding error (err: %d)\n"
  rejectIf (key.length != 1 || key.getD 0 0 != 'r'.toUInt8) "Invalid data received.\n" []
  storeTo "map_key" 2 2
  let value ← orReturn z z.tstrDecode "Decoding error (err: %d)\n"
  rejectIf (decide (30 - 1 < value.length)) "To small buffer for received data.\n" []
  copyString "map_value" 30 value
  let _ ← call z.mapEndDecode
  printChecked z (some ⟨"\x7b_\"%s\": \"%s\"\x7d\n", [.str (cString key), .str (cString value)]⟩)
    "Cannot print received CBOR stream (err: %d)\n"

/-- The header checks: a write response of the OS group, command echo. -/
def echoCheck : HeaderCheck := ⟨[3], 0, 0⟩

/-- The effects of decoding a payload: `CBOR_DECODER_STATE_NUM` states, one element. -/
def echoEffect (z : ZcborDecoder) (payload : List UInt8) (e : Effect) : Effect :=
  (echoDecode z ⟨z.newDecodeState 3 payload 1, e⟩).2.eff

/-- `smp_echo_rsp_proc`. -/
def smpEchoRspProc (z : ZcborDecoder) (m : Memory) : RspPart → Statics → RspResult :=
  rspProc echoCheck
    (fun p => [⟨"Echo response part received, size: %zu.\n", [.int p.data.length]⟩])
    [⟨"Total response received - decoding\n", []⟩] (echoEffect z) m

end Smp
end NrfSamples
