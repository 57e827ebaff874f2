import Uccl.RdmaRtoProofs
import Uccl.RdmaWindowProofs
import Uccl.RdmaRcOrderProofs
import Uccl.RdmaRecoveryProofs
import Uccl.RdmaFifoProofs
import Uccl.EqdsCreditProofs
import Uccl.EqdsGrantProofs
import Uccl.EpCxiBarrierSafetyProofs
import Uccl.EpLocalBarrierProofs
import Uccl.EpQuietSetProofs
import Uccl.EpProxyRetireProofs
import Uccl.P2pSignalProofs
import Uccl.P2pArenaProofs
import Uccl.P2pChunkProofs
import Uccl.P2pPendingProofs
import Uccl.P2pSettleProofs
import Uccl.P2pNcclReportProofs
import Uccl.P2pNcclPairProofs
import Uccl.P2pConnectProofs
import Uccl.P2pHandshakeProofs
import Uccl.P2pPeerIdProofs
import Uccl.UkRdmaSignalProofs
import Uccl.UkSignalRingProofs
import Uccl.UkRemoteBufferProofs
import Uccl.UkExecStatusProofs
import Uccl.EqdsWrapProofs
import Uccl.EpPutProofs
import Uccl.EpAtomicBackendsProofs
import Uccl.EpLayoutProofs
import Uccl.EpSegmentsProofs
import Uccl.EpAckMaskProofs
import Uccl.EpRingBufferProofs
import Uccl.RdmaAdmissionProofs
import Uccl.RdmaAckBatchProofs
import Uccl.SharedPoolProofs
import Uccl.RdmaPacingProofs
import Uccl.P2pMetadataProofs
import Uccl.P2pMrCacheProofs
import Uccl.UkIpcDataProofs
import Uccl.UkBufIdsProofs
import Uccl.UkTaskArgsProofs
import Uccl.SwiftSackProofs
import Uccl.SwiftRtoProofs
import Uccl.XdpProbeProofs
