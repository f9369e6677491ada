import NikitaFirmware.Agent.MailboxClient
import NikitaFirmware.Bridge.WholeCommands
import NikitaFirmware.Bridge.Authorisation
import NikitaFirmware.Bridge.ReadFile
import NikitaFirmware.Serial.Ownership
import NikitaFirmware.Rpc.Delivery
import NikitaFirmware.Heap.Safety
import NikitaFirmware.Nfc.BlockExchange
import NikitaFirmware.Nfc.Robustness
import NikitaFirmware.MfClassic.AccessControl
import NikitaFirmware.Type4Tag.MessageRoundTrip
import NikitaFirmware.SubGhz.SecPlusV1Packets
import NikitaFirmware.SubGhz.RawReplay
import NikitaFirmware.Storage.ExclusiveOpen
import NikitaFirmware.Storage.RemoveRecursive
import NikitaFirmware.Cli.Editor
import NikitaFirmware.RpcStorage.Transfer
import NikitaFirmware.U2f.Reassembly
import NikitaFirmware.Expansion.Wire
import NikitaFirmware.OneWire.Enumeration
import NikitaFirmware.U2f.Counter
import NikitaFirmware.U2f.Presence
import NikitaFirmware.Toolbox.FlipperUpdate
import NikitaFirmware.Agent.GpioWatch
import NikitaFirmware.Toolbox.Pipe
import NikitaFirmware.Buddy.Conversation
import NikitaFirmware.Bridge.FlipWalk
import NikitaFirmware.EventLoop.Dispatch
import NikitaFirmware.EventLoop.TimerList
import NikitaFirmware.Compress.EndOfStream
import NikitaFirmware.Toolbox.StrintWords
import NikitaFirmware.Toolbox.BitBufferRuns
import NikitaFirmware.LfRfid.H10301
import NikitaFirmware.LfRfid.Awid
import NikitaFirmware.Toolbox.KeysDictRuns
import NikitaFirmware.Compress.DecodeAccesses
import NikitaFirmware.MfClassic.NestedNonce
import NikitaFirmware.Iso15693.AnswerRule
import NikitaFirmware.Iso15693.FileRoundTrip
import NikitaFirmware.MfClassic.DumpRoundTrip
import NikitaFirmware.MfClassic.ValueOperations
import NikitaFirmware.SubGhz.KeeLoq
import NikitaFirmware.SubGhz.NiceFlorS
import NikitaFirmware.Toolbox.Manchester
import NikitaFirmware.LfRfid.RawFileFaults
import NikitaFirmware.Emv.Pdol
import NikitaFirmware.Emv.RecordRuns
import NikitaFirmware.Update.DfuTargets
import NikitaFirmware.Tar.Unpack
import NikitaFirmware.Elf.FastLoad
import NikitaFirmware.Wifi.Mailbox
import NikitaFirmware.Input.Events
import NikitaFirmware.MfKey.StateExpansion
import NikitaFirmware.BadUsb.Lines
import NikitaFirmware.Update.Manifest
