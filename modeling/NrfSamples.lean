import NrfSamples.Transition.Run
import NrfSamples.Transition.Reach
import NrfSamples.Ranges.Span
import NrfSamples.Lpcomp.Callback
import NrfSamples.Lpcomp.Trace
import NrfSamples.Lpcomp.PowerOff
import NrfSamples.Link.Connection
import NrfSamples.Cbor.Head
import NrfSamples.Cbor.Item
import NrfSamples.Cbor.Parse
import NrfSamples.Zcbor.Decoder
import NrfSamples.Zcbor.Reading
import NrfSamples.Zcbor.Encoder
import NrfSamples.Smp.Header
import NrfSamples.Smp.Handler
import NrfSamples.Smp.ProgressPrint
import NrfSamples.Smp.Reassembly
import NrfSamples.Smp.UploadRsp
import NrfSamples.Smp.ListRsp
import NrfSamples.Smp.HashText
import NrfSamples.Smp.ImageCommand
import NrfSamples.Smp.Command
import NrfSamples.Smp.EchoRsp
import NrfSamples.Smp.Overflow
import NrfSamples.Smp.Fragments
import NrfSamples.Smp.EchoTrip
import NrfSamples.Smp.ListRows
import NrfSamples.Smp.ListRun
import NrfSamples.Smp.GenuineList
import NrfSamples.Smp.ListBounds
import NrfSamples.Smp.ListAtomic
import NrfSamples.Smp.ListAccept
import NrfSamples.Smp.SendUpload
import NrfSamples.Smp.Tiling
import NrfSamples.Smp.UploadFrame
import NrfSamples.Smp.UploadRun
import NrfSamples.Smp.Resume
import NrfSamples.Client.Flow
import NrfSamples.Client.System
import NrfSamples.Client.Token
import NrfSamples.Client.ImageHash
import NrfSamples.Client.Serial
import NrfSamples.Smp.UploadBounds
import NrfSamples.Smp.UploadReports
import NrfSamples.Smp.ListComplete
import NrfSamples.Smp.ProgressRun
import NrfSamples.Client.Responses
import NrfSamples.Client.Delivery
import NrfSamples.Client.Traffic
import NrfSamples.Client.Progress
import NrfSamples.Client.Buttons
import NrfSamples.Client.Dfu
import NrfSamples.Lpcomp.Crossings
import NrfSamples.Lpcomp.LogLines
import NrfSamples.Lpcomp.Device
import NrfSamples.Link.References
import NrfSamples.Server.Advertising
